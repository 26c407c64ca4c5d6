import MachineCode.Proofs.BitString.Locality

/-!
# Truncation

Where the bits of an instruction end early, at whatever bit, a field is missing and nothing else is
found. This needs no look at the fields. More bits do not change what a scan has found, so whatever
is found in a part of the bits of an instruction is found in all of them as well, and then some of
them are left over. But the instruction that they are the bits of leaves none.

## Main definitions

* `Outcome.size?` : the size of the instruction, where it is known.
* `Decoder.HasSize` : the instruction at a position has a known size.

## Main results

* `Scan.exists_shortage_of_prefix` : a part of the bits of an instruction ends inside a field.
* `Decoder.instructionAt_truncated` : a truncated instruction is reported as truncated.
-/

namespace MachineCode

/-- The number of bytes of the instruction that bits decode to, or of the one that is only laid
out. -/
def Outcome.size? : Outcome → Option Int
  | .ok move => some move.size
  | .error (.unimplemented _ size?) => size?
  | .error _ => none

/-- Where the size of an instruction is known, no bits are missing. -/
theorem Outcome.ne_truncated_of_size? {outcome : Outcome} {size : Int}
    (h : outcome.size? = some size) (requested available : Int) :
    outcome ≠ .error (.truncated requested available) := by
  rintro rfl
  cases h

namespace Scan

variable {settings : Settings.Decoder} {bits : List Bool} {size : Nat}

/-- Where the size of an instruction is known, that many bytes in front of a string are all that is
looked at, and all of them are. -/
theorem exists_finding_of_size? (h : (outcome settings bits).size? = some (size : Int)) :
    8 * size ≤ bits.length ∧
      ∃ finding, instruction settings (bits.take (8 * size)) = .ok (finding, []) := by
  cases hscan : instruction settings bits with
  | error shortage =>
    rw [outcome, hscan] at h
    cases h
  | ok p =>
    obtain ⟨finding, rest⟩ := p
    obtain ⟨count, hle, rfl, htakes⟩ := yields_instruction settings hscan
    have houtcome : outcome settings bits = finding.outcome (count / 8) := by
      rw [outcome, hscan]
      simp only [List.length_drop, Nat.sub_sub_self hle]
    rw [houtcome] at h
    have hknown : (∀ opcode, finding ≠ .unknown opcode) ∧ count = 8 * size := by
      cases finding with
      | move operation operands =>
        obtain ⟨-, n, rfl, -⟩ := htakes
        simp only [Finding.outcome, Outcome.size?, Option.some.injEq] at h
        exact ⟨fun _ => Finding.noConfusion, by omega⟩
      | layout operation =>
        obtain ⟨n, rfl, -⟩ := htakes
        simp only [Finding.outcome, Outcome.size?, Option.some.injEq] at h
        exact ⟨fun _ => Finding.noConfusion, by omega⟩
      | reserved operation => cases h
      | unknown opcode => cases h
    obtain ⟨hknown, rfl⟩ := hknown
    obtain ⟨front, hbits, hfront⟩ := exists_prefix_of_instruction hscan hknown
    have htake : bits.take (8 * size) = front := by
      have hsplit := List.take_append_drop (8 * size) bits
      exact List.append_cancel_right (hsplit.trans hbits)
    refine ⟨hle, finding, ?_⟩
    rw [htake, ← List.append_nil front]
    exact hfront []

theorem outcome_take_of_size? (h : (outcome settings bits).size? = some (size : Int)) :
    outcome settings (bits.take (8 * size)) = outcome settings bits := by
  obtain ⟨-, finding, hfinding⟩ := exists_finding_of_size? h
  have hstable := isStable_instruction settings hfinding (bits.drop (8 * size))
  rw [List.take_append_drop] at hstable
  simp only [outcome, hfinding, hstable, List.length_drop, List.length_take, List.nil_append,
    List.length_nil, Nat.sub_zero]
  exact congrArg (Finding.outcome · finding) (by omega)

/-- What is found in a part of some bits is found in all of them, and the other bits are left over.
Where none are left over, nothing is found in the part. -/
theorem exists_shortage_of_prefix {front back : List Bool} {finding : Finding}
    (h : instruction settings back = .ok (finding, [])) (hbegin : front <+: back)
    (hne : front ≠ back) : ∃ shortage, instruction settings front = .error shortage := by
  obtain ⟨more, rfl⟩ := hbegin
  cases hscan : instruction settings front with
  | error shortage => exact ⟨shortage, rfl⟩
  | ok p =>
    have hall := isStable_instruction settings hscan more
    rw [h] at hall
    cases hmore : more with
    | nil =>
      rw [hmore, List.append_nil] at hne
      exact absurd rfl hne
    | cons bit more => simp [hmore] at hall

end Scan

namespace Decoder

variable {image other : Image}

/-- The instruction at a position has a known size: it is decoded, or it is not and its layout is
reported. -/
def HasSize (settings : Settings.Decoder) (address : Int) (reader : BitReader image)
    (size : Nat) : Prop :=
  (∃ i next, instructionAt settings address reader = .ok (i, next) ∧ i.size = size) ∨
    ∃ fault operation, instructionAt settings address reader = .error (.decode fault) ∧
      fault.cause = .unimplemented operation (some size)

theorem HasSize.size? {settings : Settings.Decoder} {address : Int} {reader : BitReader image}
    {size : Nat} (h : HasSize settings address reader size) :
    (Scan.outcome settings reader.bits).size? = some (size : Int) := by
  rcases h with ⟨i, next, hdecode, rfl⟩ | ⟨fault, operation, hfault, hcause⟩
  · rw [(outcome_of_instructionAt hdecode).1]
    rfl
  · obtain ⟨cause, houtcome, rfl⟩ := exists_cause_of_instructionAt hfault
    cases hcause
    rw [houtcome]
    rfl

/-- A truncated instruction is reported as truncated. Where the bits that are left at a position are
some of the bits of an instruction, but not all of them, a field at the end of the image is missing.
So no instruction of a known size stands in front of another one. -/
theorem instructionAt_truncated (settings : Settings.Decoder) (reader : BitReader image)
    (elsewhere : BitReader other) (address newAddress : Int) {size : Nat}
    (h : HasSize settings address reader size) :
    (elsewhere.bits <+: reader.bits.take (8 * size) →
        elsewhere.bits ≠ reader.bits.take (8 * size) →
        ∃ requested available : Nat, available < requested ∧
          instructionAt settings newAddress elsewhere = .error (.decode
            { offset := other.size, cause := .truncated requested available,
              starts := [elsewhere.byteIndex] })) ∧
      ∀ n, HasSize settings newAddress elsewhere n →
        elsewhere.bits.take (8 * n) <+: reader.bits.take (8 * size) → n = size := by
  obtain ⟨hle, finding, hfinding⟩ := Scan.exists_finding_of_size? h.size?
  constructor
  · intro hbegin hne
    obtain ⟨shortage, hshortage⟩ := Scan.exists_shortage_of_prefix hfinding hbegin hne
    refine ⟨shortage.requested, shortage.available, shortage.available_lt, ?_⟩
    have houtcome : Scan.outcome settings elsewhere.bits = .error shortage.cause := by
      rw [Scan.outcome, hshortage]
    rw [instructionAt_of_cause houtcome]
    rfl
  · intro n hn hbegin
    obtain ⟨hlen, found, hfound⟩ := Scan.exists_finding_of_size? hn.size?
    by_contra hsize
    have hne : elsewhere.bits.take (8 * n) ≠ reader.bits.take (8 * size) := by
      intro heq
      have hlength := congrArg List.length heq
      rw [List.length_take_of_le hlen, List.length_take_of_le hle] at hlength
      omega
    obtain ⟨shortage, hshortage⟩ := Scan.exists_shortage_of_prefix hfinding hbegin hne
    rw [hfound] at hshortage
    cases hshortage

/-- Six bits of the opcode of the group, read from within a byte, are truncated, and where the whole
instruction stands within bytes, it has the same size. -/
theorem instructionAt_truncated_opcode :
    ∃ (reader : BitReader #[0xFF, 0x47, 0x04]) (elsewhere : BitReader #[0x3F])
        (again : BitReader #[0x0F, 0xF4, 0x70, 0x40]),
      HasSize {} 0 reader 3 ∧ elsewhere.position = 2 ∧ elsewhere.bits <+: reader.bits.take 24 ∧
        elsewhere.bits ≠ reader.bits.take 24 ∧
        (∃ requested available : Nat, available < requested ∧
          instructionAt {} 256 elsewhere = .error (.decode
            { offset := (1 : Nat), cause := .truncated requested available,
              starts := [elsewhere.byteIndex] })) ∧
        again.position = 4 ∧ HasSize {} 256 again 3 ∧
        again.bits.take 24 <+: reader.bits.take 24 ∧
        ∀ n, HasSize {} 256 again n →
          again.bits.take (8 * n) <+: reader.bits.take 24 → n = 3 := by
  let reader : BitReader #[0xFF, 0x47, 0x04] := ⟨0, by decide⟩
  let elsewhere : BitReader #[0x3F] := ⟨2, by decide⟩
  let again : BitReader #[0x0F, 0xF4, 0x70, 0x40] := ⟨4, by decide⟩
  have hreader : Scan.outcome {} reader.bits =
      .error (.unimplemented .registerMemoryGroup (some 3)) := by decide
  have hagain : Scan.outcome {} again.bits =
      .error (.unimplemented .registerMemoryGroup (some 3)) := by decide
  have hsize : HasSize {} 0 reader 3 := .inr ⟨_, _, instructionAt_of_cause hreader, rfl⟩
  have hother : HasSize {} 256 again 3 := .inr ⟨_, _, instructionAt_of_cause hagain, rfl⟩
  have hbegin : elsewhere.bits <+: reader.bits.take 24 := by decide
  have hne : elsewhere.bits ≠ reader.bits.take 24 := by decide
  exact ⟨reader, elsewhere, again, hsize, rfl, hbegin, hne,
    (instructionAt_truncated {} reader elsewhere 0 256 hsize).1 hbegin hne, rfl, hother,
    by decide, (instructionAt_truncated {} reader again 0 256 hsize).2⟩

end Decoder

end MachineCode
