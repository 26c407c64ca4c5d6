import Mathlib
import MachineCode.Decoder.Lemmas
import MachineCode.Image.Lemmas

/-!
# Reading is exact

A read gathers its bits in rounds, one for each byte that it touches. The number gathered so far is
always the number of the bits that have been passed, so that a field is the number of its bits
wherever it lies in the image, and no round asks for a byte that does not exist.

## Main results

* `BitReader.Partial.extend?_eq` : a read that stays within the image gathers the number of its
  bits.
* `Decoder.take_of_le`, `Decoder.take_of_lt` : the outcomes of reading a field.
-/

namespace MachineCode

namespace Image

theorem bits_drop_byte {image : Image} {index : Nat} {byte : UInt8}
    (h : image[index]? = some byte) :
    image.bits.drop (8 * index) = byteBits byte ++ image.bits.drop (8 * (index + 1)) := by
  have hbyte : image.toList[index]? = some byte := by rwa [Array.getElem?_toList]
  obtain ⟨hlt, hget⟩ := List.getElem?_eq_some_iff.1 hbyte
  rw [bits, drop_flatMap_byteBits, drop_flatMap_byteBits, List.drop_eq_getElem_cons hlt, hget,
    List.flatMap_cons]

theorem bits_within_byte {image : Image} {index offset count : Nat} {byte : UInt8}
    (h : image[index]? = some byte) (hle : offset + count ≤ 8) :
    (image.bits.drop (8 * index + offset)).take count =
      ((byteBits byte).drop offset).take count := by
  have hlength : ((byteBits byte).drop offset).length = 8 - offset := by simp
  rw [← List.drop_drop, bits_drop_byte h, List.drop_append_of_le_length (by simp; omega),
    List.take_append_of_le_length (by omega)]

/-- Bits that lie within one byte are cut out of its value by a shift and a mask. -/
theorem bitsValue_within_byte (byte : UInt8) {offset count : Nat} (hle : offset + count ≤ 8) :
    bitsValue (((byteBits byte).drop offset).take count) =
      (byte.toNat >>> (8 - offset - count)) &&& ((1 <<< count) - 1) := by
  rw [bitsValue_take_drop _ _ _ (by simpa using hle), bitsValue_byteBits, length_byteBits,
    Nat.shiftLeft_eq, Nat.one_mul, Nat.and_two_pow_sub_one_eq_mod, Nat.shiftRight_eq_div_pow,
    Nat.sub_sub]

theorem bitsValue_take_add (bits : List Bool) (front back : Nat)
    (h : front + back ≤ bits.length) :
    bitsValue (bits.take (front + back)) =
      bitsValue (bits.take front) * 2 ^ back + bitsValue ((bits.drop front).take back) := by
  have hlength : ((bits.drop front).take back).length = back := by
    rw [List.length_take, List.length_drop]
    omega
  rw [List.take_add, bitsValue_append, hlength]

end Image

namespace BitReader

open Image

namespace Partial

/-- The place of a read, counted in bits. -/
def position (read : Partial) : Nat :=
  8 * read.byteIndex + read.bitOffset

theorem position_add (read : Partial) (byte : UInt8) (count : Nat)
    (h : read.bitOffset + count ≤ 8) :
    (read.add byte count h).position = read.position + count := by
  unfold position add
  dsimp only
  split
  · dsimp only
    omega
  · dsimp only
    omega

theorem value_add (read : Partial) (byte : UInt8) (count : Nat)
    (h : read.bitOffset + count ≤ 8) :
    (read.add byte count h).value = read.value * 2 ^ count +
      bitsValue (((byteBits byte).drop read.bitOffset).take count) := by
  have hbits := bitsValue_within_byte byte h
  have hlt := bitsValue_take_lt ((byteBits byte).drop read.bitOffset) count
  have hvalue : (read.add byte count h).value =
      read.value <<< count ||| bitsValue (((byteBits byte).drop read.bitOffset).take count) := by
    unfold add
    dsimp only
    split <;> rw [hbits]
  rw [hvalue, ← Nat.shiftLeft_add_eq_or_of_lt hlt, Nat.shiftLeft_eq]

/-- A read that stays within the image finds all its bytes, and gathers the number of its bits
behind the number that it starts with. -/
theorem extend?_eq (image : Image) (read : Partial) (left : Nat)
    (h : read.position + left ≤ image.bitSize) :
    ∃ next : Partial, read.extend? image left = some next ∧
      next.position = read.position + left ∧
      next.value = read.value * 2 ^ left +
        bitsValue ((image.bits.drop read.position).take left) := by
  induction left using Nat.strong_induction_on generalizing read with
  | _ left ih =>
    rw [extend?]
    by_cases hpos : 0 < left
    · have hoffset := read.bitOffset_lt
      have hindex : read.byteIndex < image.size := by
        rw [position, bitSize] at h
        omega
      have hbyte : image[read.byteIndex]? = some image[read.byteIndex] :=
        Array.getElem?_eq_getElem hindex
      have hchunk : read.bitOffset + min (8 - read.bitOffset) left ≤ 8 := by omega
      obtain ⟨next, hnext, hposition, hvalue⟩ := ih (left - min (8 - read.bitOffset) left)
        (by omega) (read.add image[read.byteIndex] (min (8 - read.bitOffset) left) hchunk)
        (by rw [position_add]; omega)
      have hsplit : min (8 - read.bitOffset) left +
          (left - min (8 - read.bitOffset) left) = left := by omega
      rw [dif_pos hpos]
      simp only [hbyte]
      refine ⟨next, hnext, ?_, ?_⟩
      · rw [hposition, position_add]
        omega
      · have hlength : min (8 - read.bitOffset) left + (left - min (8 - read.bitOffset) left) ≤
            (image.bits.drop read.position).length := by
          rw [List.length_drop, length_bits]
          omega
        have hbits := bitsValue_take_add _ _ _ hlength
        rw [hsplit, List.drop_drop] at hbits
        rw [hvalue, position_add, value_add, ← bits_within_byte hbyte hchunk, hbits, Nat.add_mul,
          Nat.mul_assoc, ← Nat.pow_add, hsplit, Nat.add_assoc]
        rfl
    · have hzero : left = 0 := by omega
      subst hzero
      exact ⟨read, rfl, rfl, by simp [bitsValue]⟩

end Partial

variable {image : Image}

@[simp] theorem position_read (reader : BitReader image) :
    reader.read.position = reader.position := by
  simp only [Partial.position, read, byteIndex, bitOffset]
  exact Nat.div_add_mod _ 8

@[simp] theorem length_bits (reader : BitReader image) : reader.bits.length = reader.remaining := by
  rw [bits, List.length_drop, Image.length_bits, remaining]

theorem atByte?_eq_some {byteIndex bitOffset : Nat} (hoffset : bitOffset < 8)
    (hle : 8 * byteIndex + bitOffset ≤ image.bitSize) :
    atByte? image byteIndex bitOffset = some ⟨8 * byteIndex + bitOffset, hle⟩ := by
  rw [bitSize] at hle
  rw [atByte?]
  rw [dif_pos (by omega)]
  congr 2

end BitReader

namespace Decoder

open Image

variable {image : Image}

/-- A field that is there is the number of its bits. -/
theorem take_of_le {count : Nat} (hpos : 0 < count) (hmax : count ≤ maxFieldWidth)
    {reader : BitReader image} (h : count ≤ reader.bits.length) :
    ∃ next : BitReader image,
      take count reader = .ok (BitVec.ofNat count (bitsValue (reader.bits.take count)), next) ∧
        next.bits = reader.bits.drop count := by
  rw [BitReader.length_bits] at h
  have hposition := reader.position_add_remaining
  obtain ⟨read, hread, hplace, hvalue⟩ := reader.read.extend?_eq image count (by
    rw [BitReader.position_read]
    omega)
  rw [BitReader.position_read] at hplace hvalue
  have hle : 8 * read.byteIndex + read.bitOffset ≤ image.bitSize := by
    rw [BitReader.Partial.position] at hplace
    omega
  refine ⟨⟨_, hle⟩, ?_, ?_⟩
  · have hzero : read.value = bitsValue (reader.bits.take count) := by
      rw [hvalue]
      exact (congrArg (· + _) (Nat.zero_mul _)).trans (Nat.zero_add _)
    rw [← hzero]
    rw [take]
    rw [bind_apply, get_apply]
    simp only [Except.bind]
    rw [if_pos ⟨hpos, hmax⟩, if_pos h, hread]
    simp only [require, bind_apply, pure_apply, Except.bind,
      BitReader.atByte?_eq_some read.bitOffset_lt hle, set_apply]
  · rw [BitReader.Partial.position] at hplace
    simp only [BitReader.bits, List.drop_drop, hplace]

/-- A field that is not there is the fault of a truncated image. -/
theorem take_of_lt {count : Nat} (hmax : count ≤ maxFieldWidth) {reader : BitReader image}
    (h : reader.bits.length < count) :
    take count reader = .error (.decode
      { offset := image.size, cause := .truncated count reader.bits.length }) := by
  rw [BitReader.length_bits] at h ⊢
  rw [take]
  rw [bind_apply, get_apply]
  simp only [Except.bind]
  rw [if_pos ⟨by omega, hmax⟩, if_neg (by omega), throw_apply]

end Decoder

end MachineCode
