import MachineCode.Proofs.BitString.Scan

/-!
# Extents of fields

How many bits the fields of an instruction take up. An operand adds whole bytes to an instruction,
at most two, and the fields around it fill the opcode and mode bytes, so that everything that is
decoded to its end takes up whole bytes.

## Main definitions

* `Operand.byteCount` : the number of bytes that an operand adds to an instruction.
* `Scan.Yields` : what a scan finds, and the number of bits in which it finds it.

## Main results

* `Scan.yields_registerMemoryOperands`, `Scan.yields_immediateRegisterOperands`,
  `Scan.yields_groupLayout` : the extents of the fields behind an opcode.
* `Scan.yields_classifyNibble` : the extent of an opcode.
-/

namespace MachineCode

/-- The number of bytes in a literal. -/
def Immediate.byteCount (immediate : Immediate) : Nat :=
  match immediate.width with
  | .byte => 1
  | .word => 2

/-- The number of bytes that an operand adds behind the opcode and the mode of an instruction. -/
def Operand.byteCount : Operand → Nat
  | .register _ => 0
  | .immediate i => i.byteCount
  | .memory (.bare _) => 0
  | .memory (.offset _ displacement) => displacement.byteCount
  | .memory (.direct displacement) => displacement.byteCount

/-- The number of bytes that the operands of an instruction add. -/
def Operands.byteCount (operands : Operands) : Nat :=
  operands.destination.byteCount + operands.source.byteCount

/-- The number of opcode bits of a family. -/
def Operation.opcodeWidth : Operation → Nat
  | .moveRegisterMemory => 6
  | .registerMemoryGroup => 8
  | _ => 4

theorem Immediate.byteCount_mem (immediate : Immediate) :
    1 ≤ immediate.byteCount ∧ immediate.byteCount ≤ 2 := by
  cases immediate <;> simp [byteCount, width]

namespace Scan

variable {α β : Type}

/-- Whatever a scan finds, it has found in the first bits of the string, and the value and the
number of these bits are related. -/
def Yields (scan : Scan α) (p : α → Nat → Prop) : Prop :=
  ∀ ⦃bits a rest⦄, scan bits = .ok (a, rest) →
    ∃ count, count ≤ bits.length ∧ rest = bits.drop count ∧ p a count

theorem yields_pure {a : α} {p : α → Nat → Prop} (h : p a 0) : Yields (pure a) p := by
  intro bits _ _ hscan
  cases hscan
  exact ⟨0, Nat.zero_le _, rfl, h⟩

theorem Yields.mono {scan : Scan α} {p q : α → Nat → Prop} (h : Yields scan p)
    (hpq : ∀ a count, p a count → q a count) : Yields scan q := by
  intro bits a rest hscan
  obtain ⟨count, hle, hrest, hp⟩ := h hscan
  exact ⟨count, hle, hrest, hpq a count hp⟩

theorem Yields.bind {x : Scan α} {f : α → Scan β} {p : α → Nat → Prop} {q : β → Nat → Prop}
    (hx : Yields x p) (hf : ∀ a m, p a m → Yields (f a) fun b n => q b (m + n)) :
    Yields (x >>= f) q := by
  intro bits b rest hscan
  obtain ⟨a, middle, hscan₁, hscan₂⟩ := Decoder.bind_eq_ok_iff.1 hscan
  obtain ⟨m, hm, rfl, hp⟩ := hx hscan₁
  obtain ⟨n, hn, rfl, hq⟩ := hf a m hp hscan₂
  rw [List.length_drop] at hn
  exact ⟨m + n, by omega, List.drop_drop, hq⟩

theorem yields_take (count : Nat) : Yields (take count) fun _ n => n = count := by
  intro bits a rest hscan
  rw [take] at hscan
  by_cases h : count ≤ bits.length
  · rw [dif_pos h] at hscan
    cases hscan
    exact ⟨count, h, rfl, rfl⟩
  · rw [dif_neg h] at hscan
    simp at hscan

theorem yields_flag : Yields flag fun _ n => n = 1 :=
  (yields_take 1).bind fun _ _ hm => yields_pure (by omega)

theorem yields_register (width : Width) : Yields (register width) fun _ n => n = 3 :=
  (yields_take 3).bind fun _ _ hm => yields_pure (by omega)

theorem yields_base : Yields base fun _ n => n = 3 :=
  (yields_take 3).bind fun _ _ hm => yields_pure (by omega)

theorem yields_immediate (width : Width) :
    Yields (immediate width) fun i n => n = 8 * i.byteCount := by
  refine (yields_take 8).bind fun low m hm => ?_
  cases width with
  | byte => exact yields_pure (by simp [Immediate.byteCount, Immediate.width, hm])
  | word =>
    exact (yields_take 8).bind fun high n hn =>
      yields_pure (by simp [Immediate.byteCount, Immediate.width, hm, hn])

theorem yields_effectiveAddress (settings : Settings.Decoder) (displacement : DisplacementMode) :
    Yields (effectiveAddress settings displacement) fun a n =>
      n = 3 + 8 * (Operand.memory a).byteCount ∧ (Operand.memory a).byteCount ≤ 2 := by
  refine yields_base.bind fun base m hm => ?_
  have hliteral : ∀ (width : Width) (address : Immediate → EffectiveAddress),
      (∀ i, (Operand.memory (address i)).byteCount = i.byteCount) →
      Yields (do return address (← immediate width)) fun a n =>
        m + n = 3 + 8 * (Operand.memory a).byteCount ∧ (Operand.memory a).byteCount ≤ 2 := by
    intro width address haddress
    refine (yields_immediate width).bind fun i n hn => yields_pure ?_
    have := i.byteCount_mem
    rw [haddress]
    omega
  cases displacement with
  | byte => exact hliteral .byte (.offset base) fun _ => rfl
  | word => exact hliteral .word (.offset base) fun _ => rfl
  | absent =>
    by_cases h : settings.directAddress = true ∧ base = .bp
    · simp only [if_pos h]
      exact hliteral .word .direct fun _ => rfl
    · simp only [if_neg h]
      exact yields_pure (by simp [Operand.byteCount, hm])

theorem yields_location (settings : Settings.Decoder) (mode : Mode) (width : Width) :
    Yields (location settings mode width) fun o n => n = 3 + 8 * o.byteCount ∧ o.byteCount ≤ 2 := by
  cases mode with
  | register =>
    exact (yields_register width).bind fun r m hm =>
      yields_pure (by simp [Operand.byteCount, hm])
  | memory displacement =>
    exact (yields_effectiveAddress settings displacement).bind fun a m hm => yields_pure hm

theorem yields_registerMemoryOperands (settings : Settings.Decoder) :
    Yields (registerMemoryOperands settings) fun o n =>
      n = 10 + 8 * o.byteCount ∧ o.byteCount ≤ 2 := by
  refine yields_flag.bind fun d _ _ => yields_flag.bind fun w _ _ =>
    (yields_take 2).bind fun mode _ _ => (yields_register _).bind fun r _ _ =>
      (yields_location settings _ _).bind fun l m hm => ?_
  have hregister : (Operand.register r).byteCount = 0 := rfl
  cases d <;> refine yields_pure ?_ <;> simp only [Operands.byteCount, hregister] <;> omega

theorem yields_immediateRegisterOperands :
    Yields immediateRegisterOperands fun o n =>
      n = 4 + 8 * o.byteCount ∧ 1 ≤ o.byteCount ∧ o.byteCount ≤ 2 := by
  refine yields_flag.bind fun w _ _ => (yields_register _).bind fun r _ _ =>
    (yields_immediate _).bind fun i n hn => yields_pure ?_
  have hregister : (Operand.register r).byteCount = 0 := rfl
  have himmediate : (Operand.immediate i).byteCount = i.byteCount := rfl
  have := i.byteCount_mem
  simp only [Operands.byteCount, hregister, himmediate]
  omega

theorem yields_groupLayout (settings : Settings.Decoder) :
    Yields (groupLayout settings) fun _ n => ∃ count, n = 8 + 8 * count ∧ count ≤ 2 :=
  (yields_take 2).bind fun _ _ _ => (yields_take 3).bind fun _ _ _ =>
    (yields_location settings _ _).bind fun o _ _ => yields_pure ⟨o.byteCount, by omega, by omega⟩

/-- A look-up leaves the bits behind the opcode, whose width is that of the row that matches. -/
theorem yields_classifyNibble (nibble : BitVec 4) (rows : List Opcode.Row) :
    Yields (classifyNibble nibble rows) fun c n => 4 + n = c.width ∧
      (c.operation = .unrecognized ∧ c.width = 4 ∨
        ∃ row ∈ rows, c.operation = row.operation ∧ c.width = 4 + row.extension.width) := by
  induction rows with
  | nil => exact yields_pure ⟨rfl, .inl ⟨rfl, rfl⟩⟩
  | cons row rows ih =>
    have hrows : Yields (classifyNibble nibble rows) fun c n => 4 + n = c.width ∧
        (c.operation = .unrecognized ∧ c.width = 4 ∨
          ∃ other ∈ row :: rows, c.operation = other.operation ∧
            c.width = 4 + other.extension.width) := by
      refine ih.mono fun c n ⟨hn, h⟩ => ⟨hn, h.imp_right ?_⟩
      rintro ⟨other, hother, h⟩
      exact ⟨other, List.mem_cons_of_mem _ hother, h⟩
    obtain ⟨leading, extension, operation, hrecognized⟩ := row
    rw [classifyNibble]
    by_cases hnibble : leading = nibble
    · simp only [if_pos hnibble]
      cases extension with
      | absent => exact yields_pure ⟨rfl, .inr ⟨_, List.mem_cons_self, rfl, rfl⟩⟩
      | ignored width width_pos =>
        exact (yields_take width).bind fun bits m hm =>
          yields_pure ⟨by dsimp only; omega, .inr ⟨_, List.mem_cons_self, rfl, rfl⟩⟩
      | exactly width width_pos value =>
        intro bits c rest hscan
        simp only [Decoder.bind_apply get, Decoder.get_apply, Except.bind] at hscan
        obtain ⟨extension, next, htake, hscan⟩ := Decoder.bind_eq_ok_iff.1 hscan
        by_cases hvalue : extension = value
        · rw [if_pos hvalue] at hscan
          cases hscan
          obtain ⟨m, hm, rfl, rfl⟩ := yields_take width htake
          exact ⟨_, hm, rfl, rfl, .inr ⟨_, List.mem_cons_self, rfl, rfl⟩⟩
        · rw [if_neg hvalue] at hscan
          exact hrows hscan
    · simp only [if_neg hnibble]
      exact hrows

theorem yields_classify_standard :
    Yields (classify Opcode.standard) fun c n =>
      n = c.width ∧ c.width = c.operation.opcodeWidth := by
  refine (yields_take 4).bind fun nibble m hm =>
    (yields_classifyNibble nibble Opcode.standard).mono fun c n ⟨hn, h⟩ => ?_
  refine ⟨by omega, ?_⟩
  rcases h with ⟨hoperation, hwidth⟩ | ⟨row, hrow, hoperation, hwidth⟩
  · rw [hoperation, hwidth]
    rfl
  · have hrows : ∀ row ∈ Opcode.standard,
        4 + row.extension.width = row.operation.opcodeWidth := by decide
    rw [hoperation, hwidth, hrows row hrow]

end Scan

end MachineCode
