/-!
# The binary64 format

Decimal numbers are rounded to the nearest number of the binary64 format before anything is decided
about them. Every finite number of the format is a multiple of its least positive number `2 ^
-1074`, so that a magnitude is given by the natural number of these units. A tie goes to the even
neighbour.

## Main definitions

* `Binary64` : a number of the format.
* `Binary64.roundDiv` : a quotient rounded to the nearest natural number.
* `Binary64.ofDecimal` : what a decimal number is rounded to.

## Main results

* `Binary64.isMagnitude_roundToPrecision` : a rounded magnitude is one of the format, unless it is
  too large.
-/

namespace MachineCode

namespace Binary64

/-- The number of bits in a significand. -/
def precision : Nat :=
  53

/-- The number of units in one. -/
def one : Nat :=
  1 <<< 1074

/-- The magnitudes from `2 ^ 1024` on are too large for the format. -/
def limit : Nat :=
  one <<< 1024

/-- Units that are the magnitude of a finite number: some bits of a significand, at some place. -/
def IsMagnitude (units : Nat) : Prop :=
  units < limit ∧ ∃ significand exponent, significand < 1 <<< precision ∧
    units = significand <<< exponent

end Binary64

/-- A number of the binary64 format, in units of the least positive one. -/
inductive Binary64 where
  | finite (negative : Bool) (units : Nat) (isMagnitude : Binary64.IsMagnitude units)
  | infinite (negative : Bool)
  | nan
  deriving DecidableEq, Repr

namespace Binary64

/-- The units in a number with their sign, if the number is finite. -/
def units? : Binary64 → Option Int
  | .finite negative units _ => some (if negative then -units else units)
  | .infinite _ | .nan => none

/-! ### Rounding -/

/-- The natural number nearest to `a / b`, and of two nearest ones the even one. -/
def roundDiv (a b : Nat) : Nat :=
  let quotient := a / b
  let remainder := a % b
  if 2 * remainder < b ∨ (2 * remainder = b ∧ quotient % 2 = 0) then quotient else quotient + 1

/-- The quotient `a / b` rounded to as many leading bits as a significand has. -/
def roundToPrecision (a b : Nat) : Nat :=
  let excess := (a / b).log2 + 1 - precision
  roundDiv a (b <<< excess) <<< excess

theorem roundDiv_le (a b : Nat) : roundDiv a b ≤ a / b + 1 := by
  unfold roundDiv
  dsimp only
  split <;> omega

theorem isMagnitude_zero : IsMagnitude 0 :=
  ⟨by decide, 0, 0, by decide, rfl⟩

/-- A quotient loses all bits but those of a significand before it is rounded. -/
theorem div_shiftLeft_lt (a b : Nat) :
    a / (b <<< ((a / b).log2 + 1 - precision)) < 1 <<< precision := by
  rw [Nat.one_shiftLeft, Nat.shiftLeft_eq, ← Nat.div_div_eq_div_mul]
  refine Nat.div_lt_of_lt_mul ?_
  rw [← Nat.pow_add]
  refine Nat.lt_of_lt_of_le Nat.lt_log2_self (Nat.pow_le_pow_right (by decide) ?_)
  omega

/-- A rounded magnitude is one of the format, unless it is too large. -/
theorem isMagnitude_roundToPrecision {a b : Nat} (h : roundToPrecision a b < limit) :
    IsMagnitude (roundToPrecision a b) := by
  let excess := (a / b).log2 + 1 - precision
  have hle : roundDiv a (b <<< excess) ≤ 1 <<< precision :=
    Nat.le_trans (roundDiv_le _ _) (div_shiftLeft_lt a b)
  refine ⟨h, ?_⟩
  rcases Nat.lt_or_eq_of_le hle with hlt | heq
  · exact ⟨_, excess, hlt, rfl⟩
  · -- the bits of a significand have been rounded up to the next power of two
    refine ⟨1 <<< (precision - 1), excess + 1, by decide, ?_⟩
    change roundDiv a (b <<< excess) <<< excess = _
    rw [heq, ← Nat.shiftLeft_add, ← Nat.shiftLeft_add]
    exact congrArg _ (by unfold precision; omega)

/-- What `± coefficient · 10 ^ exponent` is rounded to. Magnitudes of more than four hundred places
before the point, or after it before the first digit, are told apart from the others by their number
of digits alone. -/
def ofDecimal (negative : Bool) (coefficient : Nat) (exponent : Int) : Binary64 :=
  let places := exponent + (Nat.toDigits 10 coefficient).length
  if coefficient = 0 ∨ places < -400 then
    .finite negative 0 isMagnitude_zero
  else if 400 < places then
    .infinite negative
  else
    let a := coefficient * Nat.pow 10 exponent.toNat * one
    let b := Nat.pow 10 (-exponent).toNat
    if h : roundToPrecision a b < limit then
      .finite negative (roundToPrecision a b) (isMagnitude_roundToPrecision h)
    else
      .infinite negative

end Binary64

end MachineCode
