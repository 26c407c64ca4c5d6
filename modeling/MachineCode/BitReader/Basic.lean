import MachineCode.Image

/-!
# Bit readers

A bit reader is a position in an image, counted in bits from its start. The image is part of the
type, so that reading can move the position but cannot exchange the image, and a position behind the
end does not exist.

## Main definitions

* `BitReader` : a position in an image.
* `BitReader.bits` : the bits that are left to read.
* `BitReader.Partial.extend?` : the bits from a position on, gathered into a number byte by byte.
-/

namespace MachineCode

/-- A position in an image, between its first bit and its end. -/
@[ext]
structure BitReader (image : Image) where
  position : Nat
  position_le : position ≤ image.bitSize
  deriving DecidableEq

namespace BitReader

variable {image : Image}

/-- The byte that holds the next bit. -/
def byteIndex (reader : BitReader image) : Nat :=
  reader.position / 8

/-- The number of bits of that byte that lie before the next bit. -/
def bitOffset (reader : BitReader image) : Nat :=
  reader.position % 8

/-- The number of bits that are left. -/
def remaining (reader : BitReader image) : Nat :=
  image.bitSize - reader.position

/-- The bits that are left. -/
def bits (reader : BitReader image) : List Bool :=
  image.bits.drop reader.position

/-- The reader stands on the first bit of a byte, or at the end. -/
def aligned (reader : BitReader image) : Bool :=
  reader.bitOffset == 0

/-- No bits are left. -/
def atEnd (reader : BitReader image) : Bool :=
  reader.remaining == 0

/-- The reader at the start of an image. -/
def start (image : Image) : BitReader image :=
  ⟨0, Nat.zero_le _⟩

/-- The reader at a bit of a byte. The byte has to exist, or to be the one right behind the end if
the bit is its first one. -/
def atByte? (image : Image) (byteIndex bitOffset : Int) : Option (BitReader image) :=
  if h : (0 ≤ bitOffset ∧ bitOffset < 8) ∧ (0 ≤ byteIndex ∧ byteIndex ≤ image.size) ∧
      (byteIndex < image.size ∨ bitOffset = 0) then
    some ⟨(8 * byteIndex + bitOffset).toNat, by unfold Image.bitSize; omega⟩
  else
    none

/-- A read in progress: the number that the bits read so far form, and the place of the next bit. -/
structure Partial where
  value : Nat
  byteIndex : Nat
  bitOffset : Nat
  bitOffset_lt : bitOffset < 8
  deriving DecidableEq, Repr

/-- The read after `count` more bits of the byte at its place. -/
def Partial.add (read : Partial) (byte : UInt8) (count : Nat) (h : read.bitOffset + count ≤ 8) :
    Partial :=
  let shift := 8 - read.bitOffset - count
  let value := (read.value <<< count) ||| ((byte.toNat >>> shift) &&& ((1 <<< count) - 1))
  if _h : read.bitOffset + count = 8 then
    ⟨value, read.byteIndex + 1, 0, by decide⟩
  else
    ⟨value, read.byteIndex, read.bitOffset + count, by omega⟩

/-- The read after `left` more bits. Every round takes as many of them as the byte at the place of
the read still holds; there is no result where that byte does not exist. -/
def Partial.extend? (image : Image) (read : Partial) (left : Nat) : Option Partial :=
  if _h : 0 < left then
    match image[read.byteIndex]? with
    | some byte =>
      let chunk := min (8 - read.bitOffset) left
      extend? image (read.add byte chunk (by have := read.bitOffset_lt; omega)) (left - chunk)
    | none => none
  else
    some read
termination_by left
decreasing_by
  have := read.bitOffset_lt
  omega

/-- A read that starts at the place of a reader. -/
def read (reader : BitReader image) : Partial :=
  ⟨0, reader.byteIndex, reader.bitOffset, Nat.mod_lt _ (by decide)⟩

/-- A reader is described by its place and by the size of the image. -/
def text (reader : BitReader image) : String :=
  "BitCursor(byte_index=" ++ Numeral.decimal reader.byteIndex ++ ", bit_offset=" ++
    Numeral.decimal reader.bitOffset ++ ", size=" ++ Numeral.decimal image.size ++ ")"

theorem position_add_remaining (reader : BitReader image) :
    reader.position + reader.remaining = image.bitSize := by
  have := reader.position_le
  unfold remaining
  omega

theorem position_atByte? {byteIndex : Int} {reader : BitReader image}
    (h : atByte? image byteIndex 0 = some reader) : (reader.position : Int) = 8 * byteIndex := by
  unfold atByte? at h
  split at h
  · cases h
    simp only
    omega
  · cases h

end BitReader

end MachineCode
