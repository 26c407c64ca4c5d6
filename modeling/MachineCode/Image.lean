import MachineCode.Numeral

/-!
# Binary images

An image is a finite sequence of bytes. Machine code is read from it as one string of bits, the most
significant bit of each byte first. The list of these bits is the view in which all reading is
described.

## Main definitions

* `Image.bits` : the image as one string of bits.
* `Image.bitsValue` : the number that bits form.
* `Image.slice` : consecutive bytes between two positions, which may be counted from the end.
-/

namespace MachineCode

/-- A binary image is an array of bytes. -/
abbrev Image := Array UInt8

namespace Image

/-- The eight bits of a byte, most significant first. -/
def byteBits (b : UInt8) : List Bool :=
  (List.range 8).map fun i => b.toNat.testBit (7 - i)

/-- The bits of an image in reading order. -/
def bits (image : Image) : List Bool :=
  image.toList.flatMap byteBits

/-- The number that bits form, most significant first. -/
def bitsValue (bits : List Bool) : Nat :=
  bits.foldl (fun n b => 2 * n + b.toNat) 0

/-- The number of bits in an image. -/
def bitSize (image : Image) : Nat :=
  8 * image.size

/-- The place in a sequence of `size` items that a possibly negative position names: negative
positions count from the end, and every position is moved to the nearest place that exists. -/
def place (size : Nat) (position : Int) : Nat :=
  min (if position < 0 then position + size else position).toNat size

/-- The bytes from one position up to another. The slice is empty when the first position does not
come before the second one. -/
def slice (image : Image) (start stop : Int) : Image :=
  image.extract (place image.size start) (place image.size stop)

/-- The bytes of an image as two-digit numerals with a space between neighbours. -/
def text (image : Image) : String :=
  " ".intercalate (image.toList.map Numeral.byte)

end Image

end MachineCode
