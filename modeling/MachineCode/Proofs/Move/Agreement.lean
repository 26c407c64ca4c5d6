import MachineCode.Agreement
import MachineCode.Proofs.Assembly.Line
import MachineCode.Proofs.Move.Range

/-!
# Agreement of decoded instructions

Operands agree although one is a byte register and the other one the word register of the same
number. A decoded instruction therefore agrees not only with itself: a move between registers and
memory also agrees with the one whose registers all have the other width. There is no other
exception, since the registers of a move have one width, and a literal tells the width of the
register that it is moved to. The lines of two instructions that agree show whether they are equal.

## Main definitions

* `Instruction.otherWidth` : the same instruction with registers of the other width.

## Main results

* `Operand.agrees_iff` : operands that agree are equal up to the width of a register.
* `Decoder.agrees_iff_eq_or_otherWidth` : the decoded instructions that agree.
* `Decoder.exists_agrees_ne` : some of them differ.
-/

namespace MachineCode

/-- The width that is not the given one. -/
def Width.other : Width → Width
  | .byte => .word
  | .word => .byte

theorem Width.eq_or_eq_other (w v : Width) : v = w ∨ v = w.other := by
  cases w <;> cases v <;> decide

theorem Width.ne_other (w : Width) : w ≠ w.other := by
  cases w <;> decide

/-! ### Operands -/

namespace Operand

/-- The same operand, or the register of the same number and the other width. -/
def otherWidth : Operand → Operand
  | .register r => .register { r with width := r.width.other }
  | operand => operand

/-- Operands agree exactly when they are equal up to the width of a register. -/
theorem agrees_iff {o p : Operand} : o.agrees p = true ↔ p = o ∨ p = o.otherWidth := by
  cases o with
  | register r =>
    cases p with
    | register s =>
      obtain ⟨v, number⟩ := s
      simp only [agrees, otherWidth, beq_iff_eq, Operand.register.injEq]
      constructor
      · rintro rfl
        rcases r.width.eq_or_eq_other v with rfl | rfl
        · exact .inl rfl
        · exact .inr rfl
      · rintro (rfl | h)
        · rfl
        · exact (congrArg Register.index h).symm
    | immediate j => simp [agrees, otherWidth]
    | memory b => simp [agrees, otherWidth]
  | immediate i => cases p <;> simp [agrees, otherWidth, @eq_comm _ i]
  | memory a => cases p <;> simp [agrees, otherWidth, @eq_comm _ a]

/-- Operands that agree and have the same text are equal, because the text of a register tells its
width. -/
theorem eq_of_agrees_of_text {o p : Operand} (h : o.agrees p = true) (htext : o.text = p.text) :
    p = o := by
  rcases agrees_iff.1 h with heq | rfl
  · exact heq
  · have hphrase : o.phrase = o.otherWidth.phrase := by
      rw [← Assembly.readOperand_text, htext, Assembly.readOperand_text]
    cases o with
    | register r => simpa only [phrase, otherWidth, Assembly.Phrase.word.injEq,
        Assembly.Token.register.injEq, Operand.register.injEq, eq_comm] using hphrase
    | immediate i => rfl
    | memory a => rfl

end Operand

/-! ### Instructions -/

namespace Instruction

/-- The same instruction with registers of the other width. -/
def otherWidth (i : Instruction) : Instruction :=
  { i with
    destination := i.destination.otherWidth
    source := i.source.otherWidth }

/-- Instructions agree when their operands do and everything else is equal. -/
theorem agrees_iff {i j : Instruction} :
    i.agrees j = true ↔ (i.address = j.address ∧ i.size = j.size ∧ i.operation = j.operation) ∧
      i.destination.agrees j.destination = true ∧ i.source.agrees j.source = true := by
  simp only [agrees, Bool.and_eq_true, beq_iff_eq, and_assoc]

theorem eq_of_parts {i j : Instruction} (haddress : i.address = j.address) (hsize : i.size = j.size)
    (hoperation : i.operation = j.operation) (hdestination : i.destination = j.destination)
    (hsource : i.source = j.source) : i = j := by
  refine eq_of_move haddress ?_
  rw [move, move, hsize, hoperation, hdestination, hsource]

theorem text_eq_iff_of_agrees {i j : Instruction} (h : i.agrees j = true) :
    i.text = j.text ↔ i = j := by
  refine ⟨fun htext => ?_, congrArg text⟩
  obtain ⟨⟨haddress, hsize, hoperation⟩, hdestination, hsource⟩ := agrees_iff.1 h
  obtain ⟨hfirst, hsecond⟩ := Assembly.text_eq_iff.1 htext
  exact eq_of_parts haddress hsize hoperation
    (Operand.eq_of_agrees_of_text hdestination hfirst).symm
    (Operand.eq_of_agrees_of_text hsource hsecond).symm

end Instruction

namespace Move

variable {settings : Settings.Decoder}

/-- Two moves of one family whose operands agree have the same operands, or registers of the two
widths. -/
theorem WellFormed.eq_or_otherWidth {operation : Operation} {d s d' s' : Operand} {n m : Nat}
    (h : WellFormed settings ⟨operation, ⟨d, s⟩, n⟩)
    (hother : WellFormed settings ⟨operation, ⟨d', s'⟩, m⟩) (hd : d.agrees d' = true)
    (hs : s.agrees s' = true) :
    d' = d ∧ s' = s ∨
      operation = .moveRegisterMemory ∧ d' = d.otherWidth ∧ s' = s.otherWidth := by
  cases h with
  | literal r i width =>
    obtain rfl : s' = .immediate i := (Operand.agrees_iff.1 hs).elim id id
    rcases Operand.agrees_iff.1 hd with rfl | rfl
    · exact .inl ⟨rfl, rfl⟩
    · -- the literal would have both widths
      cases hother with
      | literal _ _ width' => exact absurd (width.symm.trans width') (Width.ne_other _)
  | registers r s width =>
    rcases Operand.agrees_iff.1 hd with rfl | rfl <;>
      rcases Operand.agrees_iff.1 hs with rfl | rfl
    · exact .inl ⟨rfl, rfl⟩
    · cases hother with
      | registers _ _ width' => exact absurd (width.symm.trans width') (Width.ne_other _)
    · cases hother with
      | registers _ _ width' => exact absurd (width.trans width'.symm) (Width.ne_other _)
    · exact .inr ⟨rfl, rfl, rfl⟩
  | load r a encodable =>
    obtain rfl : s' = .memory a := (Operand.agrees_iff.1 hs).elim id id
    exact (Operand.agrees_iff.1 hd).imp (⟨·, rfl⟩) (⟨rfl, ·, rfl⟩)
  | store r a encodable =>
    obtain rfl : d' = .memory a := (Operand.agrees_iff.1 hd).elim id id
    exact (Operand.agrees_iff.1 hs).imp (⟨rfl, ·⟩) (⟨rfl, rfl, ·⟩)

theorem WellFormed.otherWidth_ne {move : Move} (h : move.WellFormed settings) :
    ¬ (move.operands.destination.otherWidth = move.operands.destination ∧
      move.operands.source.otherWidth = move.operands.source) := by
  have hregister (r : Register) : (Operand.register r).otherWidth ≠ .register r := fun heq =>
    r.width.ne_other (congrArg Register.width (Operand.register.inj heq)).symm
  cases h with
  | literal r => exact fun heq => hregister r heq.1
  | registers r => exact fun heq => hregister r heq.1
  | load r => exact fun heq => hregister r heq.1
  | store r => exact fun heq => hregister r heq.2

end Move

namespace Decoder

variable {settings : Settings.Decoder} {image other : Image} {reader next : BitReader image}
  {elsewhere last : BitReader other} {address newAddress : Int} {i j : Instruction}

/-- A decoded instruction agrees with itself and, if it moves between registers and memory, with the
one whose registers have the other width, which is never the same. Those that agree have the same
line only if they are equal. -/
theorem agrees_iff_eq_or_otherWidth
    (hi : instructionAt settings address reader = .ok (i, next))
    (hj : instructionAt settings newAddress elsewhere = .ok (j, last)) :
    (i.agrees j = true ↔ i = j ∨ i.operation = .moveRegisterMemory ∧ j = i.otherWidth) ∧
      i.otherWidth ≠ i ∧ (i.agrees j = true → (i.text = j.text ↔ i = j)) := by
  have hwell := wellFormed_of_instructionAt hi
  refine ⟨⟨fun hagrees => ?_, ?_⟩, fun heq => ?_, Instruction.text_eq_iff_of_agrees⟩
  · obtain ⟨⟨haddress, hsize, hoperation⟩, hdestination, hsource⟩ :=
      Instruction.agrees_iff.1 hagrees
    have hother : Move.WellFormed settings ⟨i.operation, ⟨j.destination, j.source⟩, j.size⟩ := by
      rw [hoperation]
      exact wellFormed_of_instructionAt hj
    rcases hwell.eq_or_otherWidth hother hdestination hsource with
      ⟨hd, hs⟩ | ⟨hfamily, hd, hs⟩
    · exact .inl (Instruction.eq_of_parts haddress hsize hoperation hd.symm hs.symm)
    · exact .inr ⟨hfamily,
        Instruction.eq_of_parts haddress.symm hsize.symm hoperation.symm hd hs⟩
  · rintro (rfl | ⟨-, rfl⟩)
    · exact Instruction.agrees_iff.2
        ⟨⟨rfl, rfl, rfl⟩, Operand.agrees_iff.2 (.inl rfl), Operand.agrees_iff.2 (.inl rfl)⟩
    · exact Instruction.agrees_iff.2
        ⟨⟨rfl, rfl, rfl⟩, Operand.agrees_iff.2 (.inr rfl), Operand.agrees_iff.2 (.inr rfl)⟩
  · exact hwell.otherWidth_ne
      ⟨congrArg Instruction.destination heq, congrArg Instruction.source heq⟩

/-- The stores `mov [bx], al` and `mov [bx], ax` agree, and their lines differ. -/
theorem agrees_iff_eq_or_otherWidth_store :
    ∃ (i j : Instruction) (next : BitReader #[0x88, 0x07]) (last : BitReader #[0x89, 0x07]),
      instructionAt {} (0 : Nat) (BitReader.start #[0x88, 0x07]) = .ok (i, next) ∧
      instructionAt {} (0 : Nat) (BitReader.start #[0x89, 0x07]) = .ok (j, last) ∧
      i.agrees j = true ∧ j = i.otherWidth ∧ i.text ≠ j.text := by
  let i : Instruction := ⟨0, 2, .moveRegisterMemory, .memory (.bare .bx), .register ⟨.byte, 0⟩,
    by decide, by decide, rfl⟩
  obtain ⟨next, hi, -⟩ := @instructionAt_start_of_move #[0x88, 0x07] {} i rfl
  obtain ⟨last, hj, -⟩ := @instructionAt_start_of_move #[0x89, 0x07] {} i.otherWidth rfl
  obtain ⟨hagrees, hne, htext⟩ := agrees_iff_eq_or_otherWidth hi hj
  have h : i.agrees i.otherWidth = true := hagrees.2 (.inr ⟨rfl, rfl⟩)
  exact ⟨i, i.otherWidth, next, last, hi, hj, h, rfl, fun heq => hne ((htext h).1 heq).symm⟩

/-- The moves `mov al, cl` and `mov ax, cx` agree, although their registers differ. -/
theorem exists_agrees_ne :
    ¬ ∀ (image other : Image) (i j : Instruction) (next : BitReader image)
        (last : BitReader other),
      instructionAt {} (0 : Nat) (BitReader.start image) = .ok (i, next) →
      instructionAt {} (0 : Nat) (BitReader.start other) = .ok (j, last) →
      i.agrees j = true → i.destination = j.destination ∧ i.source = j.source := by
  intro hagrees
  let i : Instruction := ⟨0, 2, .moveRegisterMemory, .register ⟨.byte, 0⟩, .register ⟨.byte, 1⟩,
    by decide, by decide, rfl⟩
  obtain ⟨next, hi, -⟩ := @instructionAt_start_of_move #[0x88, 0xC8] {} i rfl
  obtain ⟨last, hj, -⟩ := @instructionAt_start_of_move #[0x89, 0xC8] {} i.otherWidth rfl
  have hsame := hagrees _ _ _ _ _ _ hi hj rfl
  exact absurd hsame.1 (by decide)

end Decoder

end MachineCode
