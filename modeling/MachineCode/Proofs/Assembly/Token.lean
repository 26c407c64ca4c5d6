import Mathlib
import MachineCode.Operand

/-!
# Tokens of assembly text

The text of an operand is made of few kinds of words: names of registers, size keywords, signs and
decimal numbers. This file names these words and reads them back from text in which there is a space
in front of each.

## Main definitions

* `Assembly.Token` : a word of assembly text.
* `Assembly.spaced`, `Assembly.readTokens` : words with a space in front of each, and back.

## Main results

* `Assembly.Token.ofChars_chars` : a word is read back from its characters.
* `Assembly.readTokens_spaced` : so are words with a space in front of each.
-/

namespace MachineCode.Assembly

/-! ### Decimal numbers -/

/-- The digits of a natural number are written as they are. -/
theorem digits_eq (n : Nat) : Numeral.digits 10 n = Nat.toDigits 10 n := by
  have hupper : ∀ c ∈ Nat.toDigits 10 n, c.toUpper = c := by
    intro c hc
    have hdigit := Char.isDigit_iff_toNat.1
      (Nat.isDigit_of_mem_toDigits (by decide) (by decide) hc)
    have hnot : ¬ (c.val ≥ 'a'.val ∧ c.val ≤ 'z'.val) := by
      intro h
      have := UInt32.le_iff_toNat_le.1 h.1
      have : 'a'.val.toNat = 97 := rfl
      have : '9'.toNat = 57 := rfl
      have : c.toNat = c.val.toNat := rfl
      omega
    simp only [Char.toUpper]
    rw [dif_neg hnot]
  rw [Numeral.digits, List.map_congr_left hupper, List.map_id']

theorem toList_decimal (n : Nat) : (Numeral.decimal n).toList = Nat.toDigits 10 n := by
  have hsign : ¬ (n : Int) < 0 := by omega
  simp only [Numeral.decimal, Numeral.padded, Numeral.paddedChars, Numeral.sign, if_neg hsign,
    Int.natAbs_natCast, digits_eq, String.toList_ofList, Nat.zero_sub, List.replicate_zero,
    List.nil_append]

/-! ### Tokens -/

/-- A word of assembly text. -/
inductive Token where
  /-- The keyword for the size of a displacement. -/
  | size (width : Width)
  | register (register : Register)
  | plus
  | minus
  | number (n : Nat)
  deriving DecidableEq

namespace Token

/-- The characters of a word. -/
def chars : Token → List Char
  | .size w => w.text.toList
  | .register r => r.text.toList
  | .plus => ['+']
  | .minus => ['-']
  | .number n => Nat.toDigits 10 n

/-- The words that are not numbers. -/
def fixed : List Token :=
  Token.size .byte :: Token.size .word :: Token.plus :: Token.minus ::
    ((List.finRange 8).map (fun i => Token.register ⟨.byte, .ofFin i⟩) ++
      (List.finRange 8).map (fun i => Token.register ⟨.word, .ofFin i⟩))

/-- The word that some characters are. -/
def ofChars (chars : List Char) : Token :=
  (fixed.find? fun t => t.chars == chars).getD (.number (Nat.ofDigitChars 10 chars 0))

theorem mem_fixed (t : Token) : t ∈ fixed ∨ ∃ n, t = .number n := by
  rcases t with w | ⟨w, i⟩ | _ | _ | n
  · exact .inl (by cases w <;> simp [fixed])
  · exact .inl (by cases w <;> simp [fixed])
  · exact .inl (by simp [fixed])
  · exact .inl (by simp [fixed])
  · exact .inr ⟨n, rfl⟩

theorem ne_number {t : Token} (h : t ∈ fixed) (n : Nat) : t ≠ .number n := by
  rintro rfl
  simp [fixed] at h

/-- A character that is no digit and separates neither words nor operands. -/
def isPlain (c : Char) : Bool :=
  !c.isDigit && c != ' ' && c != ',' && c != '['

/-- A word that is not a number has plain characters only. -/
theorem fixed_chars {t : Token} (h : ∀ n, t ≠ .number n) :
    t.chars ≠ [] ∧ t.chars.all isPlain = true := by
  have hregisters : ∀ (i : BitVec 3) (w : Bool), (register ⟨.ofFlag w, i⟩).chars ≠ [] ∧
      (register ⟨.ofFlag w, i⟩).chars.all isPlain = true := by
    decide +kernel
  rcases t with w | ⟨w, i⟩ | _ | _ | n
  · cases w <;> decide
  · cases w
    · exact hregisters i false
    · exact hregisters i true
  · decide
  · decide
  · exact absurd rfl (h n)

theorem chars_separators (t : Token) : ∀ c ∈ t.chars, c ≠ ' ' ∧ c ≠ ',' ∧ c ≠ '[' := by
  intro c hc
  by_cases h : ∀ n, t ≠ .number n
  · have hplain := List.all_eq_true.1 (fixed_chars h).2 c hc
    simp only [isPlain, Bool.and_eq_true, bne_iff_ne] at hplain
    exact ⟨hplain.1.1.2, hplain.1.2, hplain.2⟩
  · obtain ⟨n, rfl⟩ := not_forall_not.1 h
    have hdigit := Nat.isDigit_of_mem_toDigits (by decide) (by decide) hc
    refine ⟨?_, ?_, ?_⟩ <;>
      · rintro rfl
        exact absurd hdigit (by decide)

/-- A word is read back from its characters. -/
theorem ofChars_chars (t : Token) : ofChars t.chars = t := by
  rcases mem_fixed t with h | ⟨n, rfl⟩
  · revert t
    decide +kernel
  · have hfind : fixed.find? (fun t => t.chars == (number n).chars) = none := by
      refine List.find?_eq_none.2 fun t ht heq => ?_
      obtain ⟨hne, hchars⟩ := fixed_chars (ne_number ht)
      obtain ⟨c, rest, hc⟩ := List.exists_cons_of_ne_nil hne
      have hmem : c ∈ t.chars := by
        rw [hc]
        exact List.mem_cons_self
      have hplain := List.all_eq_true.1 hchars c hmem
      rw [eq_of_beq heq] at hmem
      rw [isPlain, Nat.isDigit_of_mem_toDigits (by decide) (by decide) hmem] at hplain
      simp at hplain
    rw [ofChars, hfind]
    exact congrArg number Nat.ofDigitChars_ten_toDigits

end Token

/-- Words with a space in front of each. -/
def spaced (tokens : List Token) : List Char :=
  tokens.flatMap fun t => ' ' :: t.chars

theorem spaced_append (front back : List Token) :
    spaced (front ++ back) = spaced front ++ spaced back :=
  List.flatMap_append

/-- The words of a text in which there is a space in front of each. -/
def readTokens (chars : List Char) : List Token :=
  ((chars.splitOn ' ').drop 1).map Token.ofChars

theorem splitOn_spaced {front : List Char} (h : ' ' ∉ front) (tokens : List Token) :
    (front ++ spaced tokens).splitOn ' ' = front :: tokens.map Token.chars := by
  induction tokens generalizing front with
  | nil =>
    rw [spaced, List.flatMap_nil, List.append_nil]
    exact List.splitOn_eq_singleton h
  | cons t tokens ih =>
    have hchars : ' ' ∉ t.chars := fun hmem => (t.chars_separators ' ' hmem).1 rfl
    rw [spaced, List.flatMap_cons, List.cons_append,
      List.splitOn_append_cons_self_of_not_mem h]
    exact congrArg (front :: ·) (ih hchars)

/-- Words are read back from the text in which there is a space in front of each. -/
theorem readTokens_spaced (tokens : List Token) : readTokens (spaced tokens) = tokens := by
  have hsplit := splitOn_spaced List.not_mem_nil tokens
  rw [List.nil_append] at hsplit
  rw [readTokens, hsplit, List.drop_one, List.tail_cons, List.map_map]
  exact (List.map_congr_left fun t _ => Token.ofChars_chars t).trans (List.map_id tokens)

end MachineCode.Assembly
