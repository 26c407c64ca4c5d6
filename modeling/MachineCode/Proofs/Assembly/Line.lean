import MachineCode.Proofs.Assembly.Address

/-!
# Lines of assembly text

A line of a listing is a mnemonic with a destination and a source. This file reads such a line back:
it tells registers, numbers and addresses apart, and gives a number the width of the register that
it is moved to. Where direct addresses are decoded, every decoded instruction is read back from its
line up to its address, so that the line keeps all of its operands and its size.

## Main definitions

* `Assembly.readOperand` : the words of an operand.
* `Assembly.assemble` : the move that the words of two operands denote.
* `Assembly.readLine` : the move that a line denotes.

## Main results

* `Assembly.readLine_text` : a decoded instruction is read back from its line.
-/

namespace MachineCode

open Assembly

/-- The words of an operand. A number has lost its width, and an address its brackets. -/
inductive Assembly.Phrase where
  | word (token : Token)
  | address (tokens : List Token)

/-- The words that an operand is written with. -/
def Operand.phrase : Operand → Phrase
  | .register r => .word (.register r)
  | .immediate i => .word (.number i.value)
  | .memory a => .address a.tokens

namespace Assembly

/-- The words of the text of an operand. -/
def readOperand : List Char → Phrase
  | '[' :: rest => .address (readTokens (' ' :: rest.dropLast))
  | chars => .word (Token.ofChars chars)

/-- The literal of a width that a number denotes. -/
def literalOf : Width → Nat → Immediate
  | .byte, n => .byte (.ofNat 8 n)
  | .word, n => .word (.ofNat 16 n)

/-- The move that the words of a destination and of a source denote. -/
def assemble : Phrase → Phrase → Option Move
  | .word (.register r), .word (.number n) =>
    some ⟨.moveImmediateRegister, ⟨.register r, .immediate (literalOf r.width n)⟩,
      1 + (literalOf r.width n).byteCount⟩
  | .word (.register r), .word (.register s) =>
    some ⟨.moveRegisterMemory, ⟨.register r, .register s⟩, 2⟩
  | .word (.register r), .address tokens =>
    (readAddress tokens).map fun a =>
      ⟨.moveRegisterMemory, ⟨.register r, .memory a⟩, 2 + (Operand.memory a).byteCount⟩
  | .address tokens, .word (.register r) =>
    (readAddress tokens).map fun a =>
      ⟨.moveRegisterMemory, ⟨.memory a, .register r⟩, 2 + (Operand.memory a).byteCount⟩
  | _, _ => none

/-- The move that a line denotes, behind its mnemonic. -/
def readLine (line : List Char) : Option Move :=
  match (line.drop 4).splitOn ',' with
  | [destination, _ :: source] => assemble (readOperand destination) (readOperand source)
  | _ => none

/-! ### Operands -/

/-- The words of an operand are read back from its text. -/
theorem readOperand_text (o : Operand) : readOperand o.text.toList = o.phrase := by
  have hword : ∀ t : Token, readOperand t.chars = .word t := by
    intro t
    have hseparators := t.chars_separators
    have hread := t.ofChars_chars
    generalize t.chars = chars at hseparators hread
    simp only [readOperand]
    split
    · exact absurd rfl (hseparators '[' List.mem_cons_self).2.2
    · rw [hread]
  cases o with
  | register r => exact hword (.register r)
  | immediate i =>
    rw [Operand.text, Immediate.text, toList_decimal]
    exact hword (.number i.value)
  | memory a =>
    obtain ⟨inner, htext, hspaced⟩ := a.toList_text
    rw [Operand.text, htext, readOperand, List.dropLast_concat, hspaced, readTokens_spaced]
    rfl

theorem comma_not_mem_spaced (tokens : List Token) : ',' ∉ spaced tokens := by
  intro hmem
  obtain ⟨t, -, hmem⟩ := List.mem_flatMap.1 hmem
  rcases List.mem_cons.1 hmem with hspace | hmem
  · exact absurd hspace (by decide)
  · exact (t.chars_separators ',' hmem).2.1 rfl

/-- There is no comma in the text of an operand. -/
theorem comma_not_mem_text (o : Operand) : ',' ∉ o.text.toList := by
  have hword : ∀ t : Token, ',' ∉ t.chars := fun t hmem => (t.chars_separators ',' hmem).2.1 rfl
  cases o with
  | register r => exact hword (.register r)
  | immediate i =>
    rw [Operand.text, Immediate.text, toList_decimal]
    exact hword (.number i.value)
  | memory a =>
    obtain ⟨inner, htext, hspaced⟩ := a.toList_text
    have hcomma := comma_not_mem_spaced a.tokens
    rw [← hspaced] at hcomma
    rw [Operand.text, htext]
    simp only [List.mem_cons, List.mem_append, not_or] at hcomma ⊢
    exact ⟨by decide, hcomma.2, by decide, List.not_mem_nil⟩

theorem comma_not_mem_space_text (o : Operand) : ',' ∉ ' ' :: o.text.toList := by
  rw [List.mem_cons, not_or]
  exact ⟨by decide, comma_not_mem_text o⟩

/-! ### Lines -/

theorem literalOf_value {w : Width} {i : Immediate} (h : i.width = w) :
    literalOf w i.value = i := by
  subst h
  cases i <;> simp [literalOf, Immediate.value, Immediate.width]

theorem assemble_phrase {settings : Settings.Decoder} (hdirect : settings.directAddress = true)
    {move : Move} (h : move.WellFormed settings) :
    assemble move.operands.destination.phrase move.operands.source.phrase = some move := by
  cases h with
  | literal r i hwidth => simp only [Operand.phrase, assemble, literalOf_value hwidth]
  | registers r s hwidth => rfl
  | load r a hencodable =>
    simp only [Operand.phrase, assemble, readAddress_tokens hdirect hencodable, Option.map_some]
  | store r a hencodable =>
    simp only [Operand.phrase, assemble, readAddress_tokens hdirect hencodable, Option.map_some]

theorem mnemonic_eq (i : Instruction) : i.mnemonic = "mov" := by
  obtain ⟨address, size, operation, destination, source, _, _, hdecodable⟩ := i
  cases operation <;> first | rfl | cases hdecodable

theorem toList_line (i : Instruction) :
    i.text.toList =
      'm' :: 'o' :: 'v' :: ' ' ::
        (i.destination.text.toList ++ ',' :: ' ' :: i.source.text.toList) := by
  simp only [Instruction.text, mnemonic_eq, String.toList_append, List.append_assoc]
  rfl

theorem text_eq_iff {i j : Instruction} :
    i.text = j.text ↔
      i.destination.text = j.destination.text ∧ i.source.text = j.source.text := by
  simp only [← String.toList_inj, toList_line, List.cons.injEq, true_and]
  -- the one comma of a line is that between its operands
  rw [List.append_cons_inj_of_notMem (comma_not_mem_text i.destination)
    (comma_not_mem_space_text i.source)]
  simp only [List.cons.injEq, true_and]

/-- What is read from a line is what its operands are assembled to. -/
theorem readLine_eq_assemble (i : Instruction) :
    readLine i.text.toList = assemble i.destination.phrase i.source.phrase := by
  have hline : i.text.toList.drop 4 =
      i.destination.text.toList ++ ',' :: ' ' :: i.source.text.toList := by
    rw [toList_line]
    rfl
  rw [readLine, hline, List.splitOn_append_cons_self_of_not_mem (comma_not_mem_text i.destination),
    List.splitOn_eq_singleton (comma_not_mem_space_text i.source)]
  simp only [readOperand_text]

/-- A decoded instruction is read back from its line, up to its address. -/
theorem readLine_text {settings : Settings.Decoder} (hdirect : settings.directAddress = true)
    {i : Instruction} (h : i.move.WellFormed settings) : readLine i.text.toList = some i.move :=
  (readLine_eq_assemble i).trans (assemble_phrase hdirect h)

end Assembly

end MachineCode
