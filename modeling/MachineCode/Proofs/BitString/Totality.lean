import MachineCode.Proofs.BitString.Outcome

/-!
# Totality of a decode step

A decode step may start at any position: within a byte, in front of fewer bits than an opcode has,
at the end of the image. Wherever it starts, it gives an instruction and a position that many whole
bytes further on, or one of the three faults that an instruction can have. The fault blames a place
that is known beforehand, and what it says about sizes agrees with the bits that are left. None of
the checks on the way fails, neither that the fields make up whole bytes, nor that a number names a
register, a base or a mode, nor that the parts of an instruction are admissible.

## Main definitions

* `Fault.Describes` : a fault is what a step may report of the instruction at a position.

## Main results

* `Decoder.instructionAt_total` : all outcomes of a decode step.
-/

namespace MachineCode

variable {image : Image}

namespace BitReader

theorem atByte?_self (reader : BitReader image) :
    atByte? image reader.byteIndex reader.bitOffset = some reader := by
  have hplace : 8 * reader.byteIndex + reader.bitOffset = reader.position :=
    Nat.div_add_mod reader.position 8
  have hlt : reader.bitOffset < 8 := Nat.mod_lt _ (by decide)
  rw [atByte?_eq_some hlt (hplace.le.trans reader.position_le)]
  exact congrArg some (BitReader.ext hplace)

theorem bitOffset_of_position_add {reader next : BitReader image} {count : Nat}
    (h : next.position = reader.position + 8 * count) : next.bitOffset = reader.bitOffset := by
  rw [bitOffset, bitOffset, h, Nat.add_mul_mod_self_left]

end BitReader

/-- What a step may report of the instruction at a position: a single note names the byte at which
the instruction starts. A truncation blames the end of the image, and names fewer bits than the
field has. All else blames the byte, and a size that is known fits into the bits that are left. -/
def Fault.Describes (fault : Fault) (reader : BitReader image) : Prop :=
  fault.NamesPlaces ∧ fault.starts = [reader.byteIndex] ∧
    (∃ note, fault.notes = [note] ∧ Names note "instruction started" reader.byteIndex) ∧
    match fault.cause with
    | .truncated requested available =>
      fault.offset = image.size ∧ 0 ≤ available ∧ available < requested
    | .unknownOpcode _ _ => fault.offset = reader.byteIndex
    | .unimplemented _ size? => fault.offset = reader.byteIndex ∧
      ∀ size, size? = some size → 2 ≤ size ∧ size ≤ 4 ∧ 8 * size ≤ reader.remaining
    | .other _ => False

theorem Fault.describes_ofCause {reader : BitReader image} {cause : Fault.Cause}
    (h : Scan.Explains reader.bits cause) :
    (ofCause image.size reader.byteIndex cause).Describes reader := by
  refine ⟨namesPlaces_ofCause .., rfl, ⟨_, rfl, names_startText _⟩, ?_⟩
  cases cause with
  | truncated requested available => exact ⟨rfl, h⟩
  | unknownOpcode bits width => rfl
  | unimplemented operation size? =>
    refine ⟨rfl, fun size hsize => ?_⟩
    subst hsize
    rw [← BitReader.length_bits]
    exact h
  | other message => exact h

namespace Decoder

/-- All outcomes of a decode step at a position with an address: an instruction of two to four
bytes, with the position right behind them, or a fault that describes why there is none. -/
theorem instructionAt_total (settings : Settings.Decoder) (reader : BitReader image)
    (address : Nat) :
    (∃ i next, instructionAt settings address reader = .ok (i, next) ∧
        i.address = address ∧ 2 ≤ i.size ∧ i.size ≤ 4 ∧
        next.position = reader.position + 8 * i.size ∧ next.bitOffset = reader.bitOffset ∧
        BitReader.atByte? image next.byteIndex next.bitOffset = some next) ∨
      ∃ fault, instructionAt settings address reader = .error (.decode fault) ∧
        fault.Describes reader := by
  rw [instructionAt_natCast]
  cases houtcome : Scan.outcome settings reader.bits with
  | ok move =>
    obtain ⟨i, next, hdecode, haddress, rfl, hposition⟩ := instruction_of_outcome address houtcome
    obtain ⟨hmin, hmax, -, -⟩ := Scan.size_of_outcome houtcome
    exact .inl ⟨i, next, hdecode, haddress, hmin, hmax, hposition,
      BitReader.bitOffset_of_position_add hposition, next.atByte?_self⟩
  | error cause =>
    have hexplains := Scan.explains_of_outcome houtcome
    exact .inr ⟨_, instruction_of_cause address houtcome, Fault.describes_ofCause hexplains⟩

end Decoder

end MachineCode
