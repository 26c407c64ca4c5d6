import MachineCode.Proofs.BitString.Outcome

/-!
# Locality of decoding

An instruction is decoded from the bits that it takes up. The bits behind it play no part, and
neither do the image, the position, the place within a byte or the address, because all fields are
scanned from the front of what is left. Where no instruction is decoded because of its opcode, more
bits change nothing; the opcode may then have been looked at beyond the bits that name it, which is
why such a fault is kept by longer strings only.

## Main definitions

* `Scan.IsLocal` : a scan looks at nothing but the bits that it passes.
* `Scan.IsStable` : more bits do not change what a scan finds.

## Main results

* `Scan.exists_prefix_of_outcome` : a move is decoded from its own bits, whatever is behind them.
* `Scan.outcome_append` : more bits change an outcome only where the bits run out.
* `Decoder.instructionAt_local` : two positions with the same bits decode alike.
-/

namespace MachineCode

namespace Scan

variable {α β : Type}

/-- Where a scan finds something, it has looked at nothing but the bits that it has passed: any
other bits may stand behind these. -/
def IsLocal (scan : Scan α) : Prop :=
  ∀ ⦃bits a rest⦄, scan bits = .ok (a, rest) →
    ∃ front, bits = front ++ rest ∧ ∀ other, scan (front ++ other) = .ok (a, other)

/-- More bits behind a string do not change what a scan finds in it. -/
def IsStable (scan : Scan α) : Prop :=
  ∀ ⦃bits a rest⦄, scan bits = .ok (a, rest) → ∀ more, scan (bits ++ more) = .ok (a, rest ++ more)

/-- Bits behind those that have not been looked at are not looked at either. -/
theorem IsLocal.isStable {scan : Scan α} (h : IsLocal scan) : IsStable scan := by
  intro bits a rest hscan more
  obtain ⟨front, rfl, hfront⟩ := h hscan
  rw [List.append_assoc]
  exact hfront (rest ++ more)

theorem isLocal_pure (a : α) : IsLocal (pure a) := by
  intro bits _ rest hscan
  cases hscan
  exact ⟨[], rfl, fun other => rfl⟩

theorem IsLocal.bind {x : Scan α} {f : α → Scan β} (hx : IsLocal x) (hf : ∀ a, IsLocal (f a)) :
    IsLocal (x >>= f) := by
  intro bits b rest hscan
  obtain ⟨a, middle, hfirst, hsecond⟩ := Decoder.bind_eq_ok_iff.1 hscan
  obtain ⟨front, rfl, hfront⟩ := hx hfirst
  obtain ⟨back, rfl, hback⟩ := hf a hsecond
  refine ⟨front ++ back, by rw [List.append_assoc], fun other => ?_⟩
  rw [List.append_assoc]
  exact Decoder.bind_eq_ok_iff.2 ⟨a, back ++ other, hfront _, hback other⟩

theorem IsStable.bind {x : Scan α} {f : α → Scan β} (hx : IsStable x)
    (hf : ∀ a, IsStable (f a)) : IsStable (x >>= f) := by
  intro bits b rest hscan more
  obtain ⟨a, middle, hfirst, hsecond⟩ := Decoder.bind_eq_ok_iff.1 hscan
  exact Decoder.bind_eq_ok_iff.2 ⟨a, middle ++ more, hx hfirst more, hf a hsecond more⟩

/-! ### Fields -/

theorem isLocal_take (count : Nat) : IsLocal (take count) := by
  intro bits a rest hscan
  rw [take] at hscan
  by_cases h : count ≤ bits.length
  · rw [dif_pos h] at hscan
    cases hscan
    refine ⟨bits.take count, (List.take_append_drop count bits).symm, fun other => ?_⟩
    have hlength : (bits.take count).length = count := List.length_take_of_le h
    rw [take, dif_pos (by rw [List.length_append]; omega), List.take_left' hlength,
      List.drop_left' hlength]
  · rw [dif_neg h] at hscan
    simp at hscan

theorem isLocal_flag : IsLocal flag :=
  (isLocal_take 1).bind fun _ => isLocal_pure _

theorem isLocal_register (width : Width) : IsLocal (register width) :=
  (isLocal_take 3).bind fun _ => isLocal_pure _

theorem isLocal_base : IsLocal base :=
  (isLocal_take 3).bind fun _ => isLocal_pure _

theorem isLocal_immediate (width : Width) : IsLocal (immediate width) := by
  refine (isLocal_take 8).bind fun low => ?_
  cases width with
  | byte => exact isLocal_pure _
  | word => exact (isLocal_take 8).bind fun high => isLocal_pure _

theorem isLocal_effectiveAddress (settings : Settings.Decoder)
    (displacement : DisplacementMode) : IsLocal (effectiveAddress settings displacement) := by
  refine isLocal_base.bind fun base => ?_
  cases displacement with
  | byte => exact (isLocal_immediate .byte).bind fun _ => isLocal_pure _
  | word => exact (isLocal_immediate .word).bind fun _ => isLocal_pure _
  | absent =>
    dsimp only
    split
    · exact (isLocal_immediate .word).bind fun _ => isLocal_pure _
    · exact isLocal_pure _

theorem isLocal_location (settings : Settings.Decoder) (mode : Mode) (width : Width) :
    IsLocal (location settings mode width) := by
  cases mode with
  | register => exact (isLocal_register width).bind fun _ => isLocal_pure _
  | memory displacement =>
    exact (isLocal_effectiveAddress settings displacement).bind fun _ => isLocal_pure _

theorem isLocal_registerMemoryOperands (settings : Settings.Decoder) :
    IsLocal (registerMemoryOperands settings) := by
  refine isLocal_flag.bind fun d => isLocal_flag.bind fun w => (isLocal_take 2).bind fun mode =>
    (isLocal_register _).bind fun register => (isLocal_location settings _ _).bind fun operand => ?_
  split <;> exact isLocal_pure _

theorem isLocal_immediateRegisterOperands : IsLocal immediateRegisterOperands :=
  isLocal_flag.bind fun _ => (isLocal_register _).bind fun _ =>
    (isLocal_immediate _).bind fun _ => isLocal_pure _

theorem isLocal_groupLayout (settings : Settings.Decoder) : IsLocal (groupLayout settings) :=
  (isLocal_take 2).bind fun _ => (isLocal_take 3).bind fun _ =>
    (isLocal_location settings _ _).bind fun _ => isLocal_pure _

theorem isLocal_fields (settings : Settings.Decoder) (opcode : Opcode.Classification) :
    IsLocal (fields settings opcode) := by
  obtain ⟨operation, width, bits⟩ := opcode
  cases operation with
  | moveRegisterMemory =>
    exact (isLocal_registerMemoryOperands settings).bind fun _ => isLocal_pure _
  | moveImmediateRegister =>
    exact isLocal_immediateRegisterOperands.bind fun _ => isLocal_pure _
  | registerMemoryGroup => exact (isLocal_groupLayout settings).bind fun _ => isLocal_pure _
  | moveImmediateMemory => exact isLocal_pure _
  | moveAccumulator => exact isLocal_pure _
  | unrecognized => exact isLocal_pure _

/-! ### Opcodes -/

/-- A row that is passed over has looked at further bits, but it does not mind more of them. -/
theorem isStable_classifyNibble (nibble : BitVec 4) (rows : List Opcode.Row) :
    IsStable (classifyNibble nibble rows) := by
  induction rows with
  | nil => exact (isLocal_pure _).isStable
  | cons row rows ih =>
    rw [classifyNibble]
    by_cases hnibble : row.nibble = nibble
    · simp only [if_pos hnibble]
      cases row.extension with
      | absent => exact (isLocal_pure _).isStable
      | ignored width width_pos =>
        exact ((isLocal_take width).bind fun _ => isLocal_pure _).isStable
      | exactly width width_pos value =>
        intro bits c rest hscan more
        simp only [Decoder.bind_apply get, Decoder.get_apply, Except.bind] at hscan ⊢
        obtain ⟨extension, next, htake, hscan⟩ := Decoder.bind_eq_ok_iff.1 hscan
        refine Decoder.bind_eq_ok_iff.2
          ⟨extension, next ++ more, (isLocal_take width).isStable htake more, ?_⟩
        by_cases hvalue : extension = value
        · rw [if_pos hvalue] at hscan ⊢
          cases hscan
          rfl
        · rw [if_neg hvalue] at hscan ⊢
          exact ih hscan more
    · simp only [if_neg hnibble]
      exact ih

/-- Where no two rows name the same leading bits, a known family is found in its own bits: there is
no row behind one that has been passed over. -/
theorem exists_prefix_of_classifyNibble {nibble : BitVec 4} {rows : List Opcode.Row}
    (hdistinct : (rows.map Opcode.Row.nibble).Nodup) {bits rest : List Bool}
    {c : Opcode.Classification} (h : classifyNibble nibble rows bits = .ok (c, rest))
    (hknown : c.operation ≠ .unrecognized) :
    ∃ front, bits = front ++ rest ∧
      ∀ other, classifyNibble nibble rows (front ++ other) = .ok (c, other) := by
  induction rows with
  | nil =>
    cases h
    exact absurd rfl hknown
  | cons row rows ih =>
    obtain ⟨hfresh, hrest⟩ := List.nodup_cons.1 hdistinct
    rw [classifyNibble] at h ⊢
    by_cases hnibble : row.nibble = nibble
    · simp only [if_pos hnibble] at h ⊢
      cases hextension : row.extension with
      | absent =>
        simp only [hextension] at h ⊢
        exact isLocal_pure _ h
      | ignored width width_pos =>
        simp only [hextension] at h ⊢
        exact ((isLocal_take width).bind fun _ => isLocal_pure _) h
      | exactly width width_pos value =>
        simp only [hextension, Decoder.bind_apply get, Decoder.get_apply, Except.bind] at h ⊢
        obtain ⟨extension, next, htake, hscan⟩ := Decoder.bind_eq_ok_iff.1 h
        by_cases hvalue : extension = value
        · rw [if_pos hvalue] at hscan
          cases hscan
          obtain ⟨front, hbits, hfront⟩ := isLocal_take width htake
          refine ⟨front, hbits, fun other => ?_⟩
          rw [Decoder.bind_of_ok (hfront other), if_pos hvalue]
          rfl
        · rw [if_neg hvalue] at hscan
          have hnone : ∀ other ∈ rows, other.nibble ≠ nibble := fun other hother heq =>
            hfresh (hnibble ▸ heq ▸ List.mem_map_of_mem hother)
          have hunknown : classifyNibble nibble rows bits = .ok (c, rest) := hscan
          rw [classifyNibble_of_forall_ne hnone] at hunknown
          cases hunknown
          exact absurd rfl hknown
    · simp only [if_neg hnibble] at h ⊢
      exact ih hrest h

/-! ### Instructions -/

theorem isStable_instruction (settings : Settings.Decoder) : IsStable (instruction settings) :=
  ((isLocal_take 4).isStable.bind fun nibble =>
    isStable_classifyNibble nibble Opcode.standard).bind fun opcode =>
      (isLocal_fields settings opcode).isStable

/-- What is found of a known family is found in its own bits. -/
theorem exists_prefix_of_instruction {settings : Settings.Decoder} {bits rest : List Bool}
    {finding : Finding} (h : instruction settings bits = .ok (finding, rest))
    (hknown : ∀ opcode, finding ≠ .unknown opcode) :
    ∃ front, bits = front ++ rest ∧
      ∀ other, instruction settings (front ++ other) = .ok (finding, other) := by
  obtain ⟨opcode, behind, hclassify, hfields⟩ := Decoder.bind_eq_ok_iff.1 h
  obtain ⟨nibble, middle, hnibble, hrows⟩ := Decoder.bind_eq_ok_iff.1 hclassify
  have hfamily : opcode.operation ≠ .unrecognized := by
    intro hfamily
    rw [fields, hfamily] at hfields
    cases hfields
    exact hknown opcode rfl
  obtain ⟨first, rfl, hfirst⟩ := isLocal_take 4 hnibble
  obtain ⟨second, rfl, hsecond⟩ := exists_prefix_of_classifyNibble (by decide) hrows hfamily
  obtain ⟨third, rfl, hthird⟩ := isLocal_fields settings opcode hfields
  refine ⟨first ++ (second ++ third), by simp only [List.append_assoc], fun other => ?_⟩
  simp only [List.append_assoc]
  exact Decoder.bind_eq_ok_iff.2 ⟨opcode, third ++ other,
    Decoder.bind_eq_ok_iff.2 ⟨nibble, second ++ (third ++ other), hfirst _, hsecond _⟩,
    hthird other⟩

/-- A move is decoded from the bits that it takes up, whatever stands behind them. -/
theorem exists_prefix_of_outcome {settings : Settings.Decoder} {bits : List Bool} {move : Move}
    (h : outcome settings bits = .ok move) :
    ∃ front rest, bits = front ++ rest ∧ front.length = 8 * move.size ∧
      ∀ other, outcome settings (front ++ other) = .ok move := by
  rw [outcome] at h
  split at h
  · rename_i finding rest hscan
    cases finding with
    | move operation operands =>
      obtain ⟨front, rfl, hfront⟩ :=
        exists_prefix_of_instruction hscan fun _ heq => Finding.noConfusion heq
      obtain ⟨count, hle, hrest, htakes⟩ := yields_instruction settings hscan
      obtain ⟨-, size, rfl, -, -⟩ := htakes
      have hlength : front.length = 8 * size := by
        have := congrArg List.length hrest
        rw [List.length_drop] at this
        rw [List.length_append] at this hle
        omega
      have hsize : ∀ other : List Bool, ((front ++ other).length - other.length) / 8 = size := by
        intro other
        rw [List.length_append]
        omega
      rw [hsize rest] at h
      cases h
      refine ⟨front, rest, rfl, hlength, fun other => ?_⟩
      simp only [outcome, hfront other, hsize other]
      rfl
    | layout operation => cases h
    | reserved operation => cases h
    | unknown opcode => cases h
  · simp at h

/-- Strings that begin with the bits of a move decode to it. -/
theorem outcome_of_take {settings : Settings.Decoder} {bits other : List Bool} {move : Move}
    (h : outcome settings bits = .ok move) (hbegin : bits.take (8 * move.size) <+: other) :
    outcome settings other = .ok move := by
  obtain ⟨front, rest, rfl, hlength, hfront⟩ := exists_prefix_of_outcome h
  rw [List.take_left' hlength] at hbegin
  obtain ⟨back, rfl⟩ := hbegin
  exact hfront back

/-- More bits behind a string change its outcome only where the string ends inside a field. -/
theorem outcome_append {settings : Settings.Decoder} {bits : List Bool}
    (h : ∀ requested available, outcome settings bits ≠ .error (.truncated requested available))
    (more : List Bool) : outcome settings (bits ++ more) = outcome settings bits := by
  cases hscan : instruction settings bits with
  | error shortage =>
    have houtcome : outcome settings bits = .error shortage.cause := by rw [outcome, hscan]
    exact absurd houtcome (h _ _)
  | ok p =>
    obtain ⟨finding, rest⟩ := p
    simp only [outcome, isStable_instruction settings hscan more, hscan, List.length_append,
      Nat.add_sub_add_right]

end Scan

/-! ### Decoders -/

namespace Decoder

/-- Decoding depends on nothing but the bits that are left, and of these only on the ones that the
instruction takes up. Where a position of any image decodes, every position with the same bits in
front decodes to the same instruction at its own address, and is left behind just as many bits. An
opcode that is not decoded is refused at every position with more bits behind it. -/
theorem instructionAt_local (settings : Settings.Decoder) {image other : Image}
    (reader : BitReader image) (elsewhere : BitReader other) (address newAddress : Nat) :
    (∀ i next count, instructionAt settings address reader = .ok (i, next) →
        next.position = reader.position + count → count ≤ elsewhere.remaining →
        elsewhere.bits.take count = reader.bits.take count →
        ∃ last, instructionAt settings newAddress elsewhere =
            .ok ({ i with address := newAddress }, last) ∧
          last.position = elsewhere.position + count) ∧
      ∀ fault, instructionAt settings address reader = .error (.decode fault) →
        (∀ requested available, fault.cause ≠ .truncated requested available) →
        reader.bits <+: elsewhere.bits →
        instructionAt settings newAddress elsewhere = .error (.decode
          { offset := elsewhere.byteIndex, cause := fault.cause,
            starts := [elsewhere.byteIndex] }) := by
  simp only [instructionAt_natCast]
  constructor
  · intro i next count hdecode hcount hremaining hbits
    cases houtcome : Scan.outcome settings reader.bits with
    | error cause =>
      rw [instruction_of_cause address houtcome] at hdecode
      simp at hdecode
    | ok move =>
      obtain ⟨j, place, hj, -, rfl, hplace⟩ := instruction_of_outcome address houtcome
      rw [hj] at hdecode
      cases hdecode
      have hsize : count = 8 * i.move.size := by omega
      have hbegin : reader.bits.take (8 * i.move.size) <+: elsewhere.bits := by
        rw [← hsize, ← hbits]
        exact List.take_prefix _ _
      obtain ⟨k, last, hk, haddress, hmove, hlast⟩ :=
        instruction_of_outcome newAddress (Scan.outcome_of_take houtcome hbegin)
      have heq : k = { i with address := newAddress } := Instruction.eq_of_move haddress hmove
      exact ⟨last, heq ▸ hk, by rw [hlast, hsize]⟩
  · intro fault hdecode hcause hmore
    cases houtcome : Scan.outcome settings reader.bits with
    | ok move =>
      obtain ⟨j, place, hj, -⟩ := instruction_of_outcome address houtcome
      rw [hj] at hdecode
      simp at hdecode
    | error cause =>
      rw [instruction_of_cause address houtcome] at hdecode
      cases hdecode
      obtain ⟨more, hmore⟩ := hmore
      have happend : Scan.outcome settings elsewhere.bits = .error cause := by
        rw [← hmore, Scan.outcome_append _ more, houtcome]
        intro requested available heq
        rw [houtcome] at heq
        cases heq
        exact hcause requested available rfl
      rw [instruction_of_cause newAddress happend]
      cases cause with
      | truncated requested available => exact absurd rfl (hcause requested available)
      | _ => rfl

/-- A move from `bx` to `ax` that starts in the middle of a byte is the same move where it starts
behind the first bit of one, and leading bits of no known family are refused with more bits behind
them. -/
theorem instructionAt_local_unaligned :
    (∃ (reader : BitReader #[0x08, 0x9D, 0x80]) (elsewhere : BitReader #[0xC4, 0xEC, 0x00])
        (i : Instruction) (next : BitReader #[0x08, 0x9D, 0x80])
        (last : BitReader #[0xC4, 0xEC, 0x00]),
        reader.position = 4 ∧ elsewhere.position = 1 ∧
        instructionAt {} (0 : Nat) reader = .ok (i, next) ∧
        i.move = ⟨.moveRegisterMemory, ⟨.register ⟨.word, 0⟩, .register ⟨.word, 3⟩⟩, 2⟩ ∧
        instructionAt {} (256 : Nat) elsewhere = .ok ({ i with address := 256 }, last) ∧
        last.position = 17) ∧
      ∃ (reader : BitReader #[0x03]) (elsewhere : BitReader #[0x00, 0x3F]) (fault : Fault),
        reader.position = 2 ∧ elsewhere.position = 6 ∧
        instructionAt {} (0 : Nat) reader = .error (.decode fault) ∧
        fault.cause = .unknownOpcode 0 4 ∧
        instructionAt {} (256 : Nat) elsewhere = .error (.decode
          { offset := elsewhere.byteIndex, cause := fault.cause,
            starts := [elsewhere.byteIndex] }) := by
  constructor
  · let reader : BitReader #[0x08, 0x9D, 0x80] := ⟨4, by decide⟩
    let elsewhere : BitReader #[0xC4, 0xEC, 0x00] := ⟨1, by decide⟩
    have houtcome : Scan.outcome {} reader.bits =
        .ok ⟨.moveRegisterMemory, ⟨.register ⟨.word, 0⟩, .register ⟨.word, 3⟩⟩, 2⟩ := by decide
    obtain ⟨i, next, hdecode, -, hmove, hnext⟩ := instruction_of_outcome 0 houtcome
    rw [← instructionAt_natCast] at hdecode
    obtain ⟨last, hlast, hposition⟩ := (instructionAt_local {} reader elsewhere 0 256).1 i next 16
      hdecode hnext (by decide) (by decide)
    exact ⟨reader, elsewhere, i, next, last, rfl, rfl, hdecode, hmove, hlast, hposition⟩
  · let reader : BitReader #[0x03] := ⟨2, by decide⟩
    let elsewhere : BitReader #[0x00, 0x3F] := ⟨6, by decide⟩
    have houtcome : Scan.outcome {} reader.bits = .error (.unknownOpcode 0 4) := rfl
    have hdecode := instruction_of_cause 0 houtcome
    rw [← instructionAt_natCast] at hdecode
    have hrefused := (instructionAt_local {} reader elsewhere 0 256).2 _ hdecode
      (fun _ _ => Fault.Cause.noConfusion) (by decide)
    exact ⟨reader, elsewhere, _, rfl, rfl, hdecode, rfl, hrefused⟩

end Decoder

end MachineCode
