import Mathlib
import MachineCode.Image

/-!
# Bits and their numbers

The number of a part of some bits is found by division with remainder, and the bits of whole bytes
are a part of the bits of an image.

## Main results

* `Image.bitsValue_take_drop` : the number of the bits between two places.
* `Image.bitsValue_byteBits` : the bits of a byte form its value.
* `Image.exists_flatMap_byteBits` : bits that fill whole bytes are the bits of some bytes.
* `Image.length_bits` : an image has eight bits for each byte.
-/

namespace MachineCode.Image

/-! ### The number of a list of bits -/

theorem foldl_bits (n : Nat) (bits : List Bool) :
    bits.foldl (fun n b => 2 * n + b.toNat) n = n * 2 ^ bits.length + bitsValue bits := by
  unfold bitsValue
  induction bits generalizing n with
  | nil => simp
  | cons b bits ih =>
    simp only [List.foldl_cons, List.length_cons]
    rw [ih (2 * n + b.toNat), ih (2 * 0 + b.toNat), Nat.pow_succ, Nat.add_mul, Nat.add_mul]
    simp only [Nat.mul_zero, Nat.zero_mul, Nat.zero_add, Nat.mul_comm 2 n, Nat.mul_assoc,
      Nat.mul_comm 2 (2 ^ _), Nat.add_assoc]

theorem bitsValue_append (front back : List Bool) :
    bitsValue (front ++ back) = bitsValue front * 2 ^ back.length + bitsValue back := by
  rw [bitsValue, List.foldl_append, foldl_bits]
  rfl

theorem bitsValue_lt (bits : List Bool) : bitsValue bits < 2 ^ bits.length := by
  induction bits with
  | nil => decide
  | cons b bits ih =>
    have hb : b.toNat ≤ 1 := Bool.toNat_le b
    rw [← List.singleton_append, bitsValue_append]
    have hone : bitsValue [b] = b.toNat := by simp [bitsValue]
    have hmul : bitsValue [b] * 2 ^ bits.length ≤ 1 * 2 ^ bits.length := by
      rw [hone]
      exact Nat.mul_le_mul_right _ hb
    rw [List.length_append, List.length_singleton, Nat.add_comm 1, Nat.pow_succ]
    omega

theorem bitsValue_take_lt (bits : List Bool) (count : Nat) :
    bitsValue (bits.take count) < 2 ^ count :=
  (bitsValue_lt _).trans_le (Nat.pow_le_pow_right (by decide) (List.length_take_le _ _))

theorem bitsValue_take (bits : List Bool) (count : Nat) :
    bitsValue (bits.take count) = bitsValue bits / 2 ^ (bits.length - count) := by
  have h := bitsValue_append (bits.take count) (bits.drop count)
  have hlt := bitsValue_lt (bits.drop count)
  rw [List.take_append_drop] at h
  rw [List.length_drop] at h hlt
  rw [h, Nat.mul_comm, Nat.mul_add_div (Nat.two_pow_pos _), Nat.div_eq_of_lt hlt, Nat.add_zero]

theorem bitsValue_drop (bits : List Bool) (count : Nat) :
    bitsValue (bits.drop count) = bitsValue bits % 2 ^ (bits.length - count) := by
  have h := bitsValue_append (bits.take count) (bits.drop count)
  have hlt := bitsValue_lt (bits.drop count)
  rw [List.take_append_drop] at h
  rw [List.length_drop] at h hlt
  rw [h, Nat.mul_comm, Nat.mul_add_mod, Nat.mod_eq_of_lt hlt]

/-- Bits between two places form the quotient by the bits behind them, less what the bits in front
add to it. -/
theorem bitsValue_take_drop (bits : List Bool) (first count : Nat)
    (h : first + count ≤ bits.length) :
    bitsValue ((bits.drop first).take count) =
      bitsValue bits / 2 ^ (bits.length - (first + count)) % 2 ^ count := by
  have hsplit : bits.length - first = (bits.length - (first + count)) + count := by omega
  rw [bitsValue_take, bitsValue_drop, List.length_drop, Nat.sub_sub, hsplit, Nat.pow_add,
    Nat.mod_mul_right_div_self]

/-! ### The bits of bytes -/

@[simp]
theorem length_byteBits (b : UInt8) : (byteBits b).length = 8 := by
  simp [byteBits]

/-- The bits of a byte form its value. -/
theorem bitsValue_byteBits (b : UInt8) : bitsValue (byteBits b) = b.toNat := by
  have h : ∀ n : Fin 256,
      bitsValue ((List.range 8).map fun i => n.val.testBit (7 - i)) = n.val := by
    decide +kernel
  exact h ⟨b.toNat, b.toNat_lt⟩

theorem byteBits_append_inj {b c : UInt8} {rest others : List Bool} :
    byteBits b ++ rest = byteBits c ++ others ↔ b = c ∧ rest = others := by
  constructor
  · intro h
    obtain ⟨hfirst, hrest⟩ := List.append_inj h (by rw [length_byteBits, length_byteBits])
    have hvalue := congrArg bitsValue hfirst
    rw [bitsValue_byteBits, bitsValue_byteBits] at hvalue
    exact ⟨UInt8.toNat_inj.1 hvalue, hrest⟩
  · rintro ⟨rfl, rfl⟩
    rfl

theorem length_flatMap_byteBits (bytes : List UInt8) :
    (bytes.flatMap byteBits).length = 8 * bytes.length := by
  induction bytes with
  | nil => rfl
  | cons b bytes ih =>
    rw [List.flatMap_cons, List.length_append, ih, length_byteBits, List.length_cons]
    omega

theorem drop_flatMap_byteBits (bytes : List UInt8) (count : Nat) :
    (bytes.flatMap byteBits).drop (8 * count) = (bytes.drop count).flatMap byteBits := by
  induction bytes generalizing count with
  | nil => simp
  | cons b bytes ih =>
    cases count with
    | zero => rfl
    | succ count =>
      rw [List.flatMap_cons, List.drop_append, length_byteBits, List.drop_succ_cons,
        List.drop_eq_nil_of_le (by rw [length_byteBits]; omega), List.nil_append,
        show 8 * (count + 1) - 8 = 8 * count by omega, ih]

theorem byteBits_bitsValue {bits : List Bool} (h : bits.length = 8) :
    byteBits (.ofNat (bitsValue bits)) = bits := by
  have hall : ∀ a b c d e f g h : Bool,
      byteBits (.ofNat (bitsValue [a, b, c, d, e, f, g, h])) = [a, b, c, d, e, f, g, h] := by
    decide +kernel
  match bits, h with
  | [_, _, _, _, _, _, _, _], _ => exact hall _ _ _ _ _ _ _ _

/-- Bits that fill whole bytes are the bits of some bytes. -/
theorem exists_flatMap_byteBits {count : Nat} {bits : List Bool} (h : bits.length = 8 * count) :
    ∃ bytes : List UInt8, bytes.flatMap byteBits = bits := by
  induction count generalizing bits with
  | zero => exact ⟨[], (List.eq_nil_of_length_eq_zero h).symm⟩
  | succ count ih =>
    have hfirst : (bits.take 8).length = 8 := List.length_take_of_le (by omega)
    have hback : (bits.drop 8).length = 8 * count := by
      rw [List.length_drop]
      omega
    obtain ⟨bytes, hbytes⟩ := ih hback
    refine ⟨.ofNat (bitsValue (bits.take 8)) :: bytes, ?_⟩
    rw [List.flatMap_cons, byteBits_bitsValue hfirst, hbytes, List.take_append_drop]

/-! ### Images -/

/-- An image has eight bits for each byte. -/
@[simp]
theorem length_bits (image : Image) : image.bits.length = image.bitSize := by
  rw [bits, length_flatMap_byteBits, Array.length_toList, bitSize]

end MachineCode.Image
