import MachineCode.BitReader.Basic
import MachineCode.Error

/-!
# Decoders

A decoder reads from a position in an image, moves the position on, and gives a value or an error.
All decoders are built from `take`, which reads one field.

## Main definitions

* `Decoder` : a reading computation on one image.
* `Decoder.take` : the number formed by the next bits.
-/

namespace MachineCode

/-- A computation that reads an image from a position on. -/
abbrev Decoder (image : Image) := StateT (BitReader image) (Except Error)

namespace Decoder

variable {image : Image} {α : Type}

/-- The widest field that is read in one go. -/
def maxFieldWidth : Nat :=
  16

/-- A value that has to exist. -/
def require (value? : Option α) : Decoder image α :=
  match value? with
  | some value => return value
  | none => throw .outOfRange

/-- Reads the number formed by the next `count` bits. A field has at least one bit and at most
sixteen, whatever the image holds; the fault of a truncated image blames the image's end. -/
def take (count : Nat) : Decoder image (BitVec count) := do
  let reader ← get
  if 0 < count ∧ count ≤ maxFieldWidth then
    if count ≤ reader.remaining then
      let read ← require (reader.read.extend? image count)
      set (← require (BitReader.atByte? image read.byteIndex read.bitOffset))
      return BitVec.ofNat count read.value
    else
      throw (.decode { offset := image.size, cause := .truncated count reader.remaining })
  else
    throw .outOfRange

/-- Reads one bit as a flag. -/
def flag : Decoder image Bool := do
  return (← take 1) == 1

/-- Lets the faults of a decoder name the byte at which it starts. -/
def instructionStart (decoder : Decoder image α) : Decoder image α := fun reader =>
  (decoder reader).mapError (Error.startedAt reader.byteIndex)

/-- The number of bytes read since an earlier position. What has been read has to be whole bytes,
and not nothing. -/
def bytesSince (start : BitReader image) : Decoder image Nat := do
  let count := (← get).position - start.position
  if 0 < count ∧ count % 8 = 0 then
    return count / 8
  else
    throw .outOfRange

end Decoder

end MachineCode
