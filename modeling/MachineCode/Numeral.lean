/-!
# Padded numerals

Addresses, offsets, bytes and opcode bits are all written as numerals of a fixed least width in base
two or sixteen. This file defines the one padded numeral from which these texts are made. A minus
sign counts as one of the places that the width asks for, so that a column of numerals stays aligned
when a value is negative.

## Main definitions

* `Numeral.padded` : the numeral of an integer in a base, filled up with zeros behind the sign.
* `Numeral.address`, `Numeral.offset`, `Numeral.byte` : the three hexadecimal forms of a listing.
-/

namespace MachineCode.Numeral

/-- The digits of a natural number in a base up to sixteen, most significant first, with capital
letters. -/
def digits (base n : Nat) : List Char :=
  (Nat.toDigits base n).map Char.toUpper

/-- The sign of an integer: a minus in front of negative numbers, nothing in front of the others. -/
def sign (n : Int) : List Char :=
  if n < 0 then ['-'] else []

/-- The numeral of `n` in a base, with zeros between the sign and the digits until `width` places
are filled. -/
def paddedChars (base width : Nat) (n : Int) : List Char :=
  let body := digits base n.natAbs
  sign n ++ (List.replicate (width - (sign n).length - body.length) '0' ++ body)

/-- The text of `paddedChars`. -/
def padded (base width : Nat) (n : Int) : String :=
  String.ofList (paddedChars base width n)

/-- The decimal numeral of an integer, without padding. -/
def decimal (n : Int) : String :=
  padded 10 0 n

/-- A physical address has five hexadecimal places, enough for the twenty address lines. -/
def address (n : Int) : String :=
  "0x" ++ padded 16 5 n

/-- An offset into a binary has four hexadecimal places. -/
def offset (n : Int) : String :=
  "0x" ++ padded 16 4 n

/-- A byte has two hexadecimal places. -/
def byte (b : UInt8) : String :=
  padded 16 2 b.toNat

end MachineCode.Numeral
