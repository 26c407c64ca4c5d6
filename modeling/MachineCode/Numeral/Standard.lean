/-!
# The standard form of a numeral

People write an integer in many ways: with white space around it, with a plus, with leading zeros,
with underscores between its digits, or with a point and zeros behind it. All of this is left out of
the standard form, which is a minus, if there is one, and digits. Characters that have no place in a
numeral may remain, so that a text is a numeral only if its standard form is one.

## Main definitions

* `Numeral.trim` : characters without the white space around them.
* `Numeral.standardForm?` : the standard form of the numeral in a text.
-/

namespace MachineCode.Numeral

/-! ### White space -/

/-- The ranges of the characters with the property `White_Space`. -/
def whiteSpace : List (Nat × Nat) :=
  [(0x9, 0xD), (0x20, 0x20), (0x85, 0x85), (0xA0, 0xA0), (0x1680, 0x1680), (0x2000, 0x200A),
    (0x2028, 0x2029), (0x202F, 0x202F), (0x205F, 0x205F), (0x3000, 0x3000)]

/-- The character is white space. -/
def isWhiteSpace (c : Char) : Bool :=
  whiteSpace.any fun range => range.1 ≤ c.toNat && c.toNat ≤ range.2

/-- The characters without the white space around them. -/
def trim (chars : List Char) : List Char :=
  ((chars.dropWhile isWhiteSpace).reverse.dropWhile isWhiteSpace).reverse

/-! ### Digits -/

/-- What stands behind leading zeros and the underscores among them, where `last` is the last of
them so far. It starts with another digit or a minus; a point and the end keep the last character in
front of them. -/
def dropZeros? (last : Char) : List Char → Option (List Char)
  | [] => some [last]
  | c :: rest =>
    if c = '0' ∨ c = '_' then dropZeros? c rest
    else if c.isDigit ∨ c = '-' then some (c :: rest)
    else if c = '.' then some (last :: c :: rest)
    else none

/-- A numeral without its leading zeros. It has to start with a digit. -/
def dropLeadingZeros? : List Char → Option (List Char)
  | [] => none
  | c :: rest =>
    if c = '0' then dropZeros? c rest
    else if c.isDigit then some (c :: rest)
    else none

/-- A numeral without its fraction, if zeros and nothing else stand behind the point. -/
def dropZeroFraction (chars : List Char) : List Char :=
  let (whole, fraction) := chars.span (· != '.')
  let digits := fraction.drop 1
  if !digits.isEmpty && digits.all (· == '0') then whole else chars

/-- The characters without the single underscores between them, behind a character that is not an
underscore. There are none if underscores stand elsewhere. -/
def ungroupFrom? : List Char → Option (List Char)
  | [] => some []
  | '_' :: c :: rest => if c = '_' then none else (ungroupFrom? rest).map (c :: ·)
  | c :: rest => if c = '_' then none else (ungroupFrom? rest).map (c :: ·)

/-- The characters without the underscores between them. Underscores that do not stand alone between
other characters stay where they are. -/
def ungroup : List Char → List Char
  | [] => []
  | c :: rest => if c = '_' then c :: rest else c :: (ungroupFrom? rest).getD rest

/-- An unsigned numeral without leading zeros, fraction and underscores. -/
def unsignedForm? (chars : List Char) : Option (List Char) :=
  (dropLeadingZeros? chars).map fun chars => ungroup (dropZeroFraction chars)

/-- A numeral without a plus and without what an unsigned numeral can do without. A minus stays, and
may also stand behind leading zeros. -/
def signedForm? : List Char → Option (List Char)
  | '+' :: rest => unsignedForm? rest
  | '-' :: rest => (unsignedForm? rest).map ('-' :: ·)
  | chars => unsignedForm? chars

/-- The standard form of the numeral in a text. White space around the numeral does not count. -/
def standardForm? (text : String) : Option (List Char) :=
  signedForm? (trim text.toList)

end MachineCode.Numeral
