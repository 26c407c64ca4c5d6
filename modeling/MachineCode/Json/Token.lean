import MachineCode.Json.Basic

/-!
# JSON tokens

A JSON text is a sequence of punctuation marks, strings and words, with blanks between them. A word
is a longest run of characters that are none of these, and is one of three literals or a number, or
one of the three names for numbers that are not finite.

## Main definitions

* `Json.Number.ofChars?` : the number that a word denotes.
* `Json.Token` : a token.
* `Json.Token.scan` : the tokens of a text.
-/

namespace MachineCode.Json

/-! ### Numbers -/

/-- The number that a sequence of decimal digits denotes. -/
def decimalValue (digits : List Char) : Nat :=
  digits.foldl (fun n c => 10 * n + (c.toNat - '0'.toNat)) 0

/-- The characters are decimal digits, and there is at least one of them. -/
def isDigits (chars : List Char) : Bool :=
  !chars.isEmpty && chars.all Char.isDigit

/-- The exponent that is written behind the mark `e`: digits, behind a sign if there is one. -/
def exponentOfChars? : List Char → Option Int
  | '+' :: digits => if isDigits digits then some (decimalValue digits) else none
  | '-' :: digits => if isDigits digits then some (-decimalValue digits) else none
  | digits => if isDigits digits then some (decimalValue digits) else none

/-- The greatest number of characters in the whole part of a number, with its sign. -/
def Number.maxLength : Nat :=
  4300

/-- The whole part of a number, with its sign, is too long to be read. -/
def Number.isOverlong (negative : Bool) (whole : List Char) : Bool :=
  maxLength < whole.length + negative.toNat

/-- The number that a word denotes. A leading zero stands alone in front of a fraction or an
exponent, digits stand on both sides of the point, and the whole part is not too long. -/
def Number.ofChars? (chars : List Char) : Option Number :=
  let negative := chars.head? == some '-'
  let unsigned := if negative then chars.drop 1 else chars
  let (significand, exponent) := unsigned.span fun c => c != 'e' && c != 'E'
  let (whole, fraction) := significand.span (· != '.')
  if isDigits whole && (whole.length == 1 || whole.head? != some '0') &&
      !isOverlong negative whole then
    match fraction, exponent with
    | [], [] => some (.integer (if negative then -decimalValue whole else decimalValue whole))
    | [], _mark :: exponent =>
      (exponentOfChars? exponent).map fun n =>
        .float (.ofDecimal negative (decimalValue whole) n)
    | _point :: fraction, exponent =>
      if isDigits fraction then
        match exponent with
        | [] =>
          some (.float (.ofDecimal negative (decimalValue (whole ++ fraction)) (-fraction.length)))
        | _mark :: exponent =>
          (exponentOfChars? exponent).map fun n =>
            .float (.ofDecimal negative (decimalValue (whole ++ fraction)) (n - fraction.length))
      else
        none
  else
    none

/-! ### Strings -/

/-- The quotation mark around a string. -/
def quote : Char :=
  '\x22'

/-- The mark in front of an escape. -/
def backslash : Char :=
  '\x5c'

/-- The value of a hexadecimal digit. -/
def hexDigit? (c : Char) : Option Nat :=
  if c.isDigit then some (c.toNat - '0'.toNat)
  else if 'a' ≤ c ∧ c ≤ 'f' then some (c.toNat - 'a'.toNat + 10)
  else if 'A' ≤ c ∧ c ≤ 'F' then some (c.toNat - 'A'.toNat + 10)
  else none

/-- The sixteen-bit unit that four hexadecimal digits denote. -/
def unit? (a b c d : Char) : Option Nat := do
  return 4096 * (← hexDigit? a) + 256 * (← hexDigit? b) + 16 * (← hexDigit? c) + (← hexDigit? d)

/-- The character that a sixteen-bit unit denotes alone. Units of surrogate pairs denote none. -/
def charOfUnit? (unit : Nat) : Option Char :=
  if 0xD800 ≤ unit ∧ unit < 0xE000 then none else some (Char.ofNat unit)

/-- The character that two sixteen-bit units denote as a surrogate pair. -/
def charOfPair? (high low : Nat) : Option Char :=
  if (0xD800 ≤ high ∧ high < 0xDC00) ∧ 0xDC00 ≤ low ∧ low < 0xE000 then
    some (Char.ofNat (0x10000 + 1024 * (high - 0xD800) + (low - 0xDC00)))
  else
    none

/-- The character that a one-letter escape stands for. -/
def charOfEscape? (letter : Char) : Option Char :=
  if letter = quote ∨ letter = backslash ∨ letter = '/' then some letter
  else if letter = 'b' then some '\x08'
  else if letter = 'f' then some '\x0c'
  else if letter = 'n' then some '\n'
  else if letter = 'r' then some '\r'
  else if letter = 't' then some '\t'
  else none

/-- The character that the escape behind a backslash denotes, and what follows the escape. -/
def escape? : List Char → Option (Char × List Char)
  | 'u' :: a :: b :: c :: d :: rest =>
    match unit? a b c d with
    | none => none
    | some unit =>
      match charOfUnit? unit, rest with
      | some char, _ => some (char, rest)
      | none, mark :: 'u' :: e :: f :: g :: h :: rest =>
        if mark = backslash then
          ((unit? e f g h).bind (charOfPair? unit)).map fun char => (char, rest)
        else
          none
      | none, _ => none
  | letter :: rest => (charOfEscape? letter).map fun char => (char, rest)
  | [] => none

theorem length_lt_of_escape? {chars rest : List Char} {char : Char}
    (h : escape? chars = some (char, rest)) :
    rest.length < chars.length := by
  unfold escape? at h
  split at h
  · split at h
    · cases h
    · split at h
      · cases h
        simp only [List.length_cons]
        omega
      · split at h
        · obtain ⟨_, _, heq⟩ := Option.map_eq_some_iff.1 h
          cases heq
          simp only [List.length_cons]
          omega
        · cases h
      · cases h
  · obtain ⟨_, _, heq⟩ := Option.map_eq_some_iff.1 h
    cases heq
    simp only [List.length_cons]
    omega
  · cases h

/-- The characters of a string up to its closing quotation mark, and what follows the mark. Control
characters do not occur in strings except as escapes. -/
def stringBody? (chars : List Char) : Option (List Char × List Char) :=
  match chars with
  | [] => none
  | c :: rest =>
    if c = quote then
      some ([], rest)
    else if c = backslash then
      match _h : escape? rest with
      | none => none
      | some (char, rest) => (stringBody? rest).map fun p => (char :: p.1, p.2)
    else if c < ' ' then
      none
    else
      (stringBody? rest).map fun p => (c :: p.1, p.2)
termination_by chars.length
decreasing_by
  · have := length_lt_of_escape? _h
    simp only [List.length_cons]
    omega
  · simp only [List.length_cons]
    omega

theorem length_lt_of_stringBody? {chars body rest : List Char}
    (h : stringBody? chars = some (body, rest)) :
    rest.length < chars.length := by
  fun_induction stringBody? chars generalizing body rest with
  | case1 => cases h
  | case2 rest' =>
    cases h
    exact Nat.lt_succ_self _
  | case3 => cases h
  | case4 rest' char next hescape _ ih =>
    obtain ⟨p, hp, heq⟩ := Option.map_eq_some_iff.1 h
    cases heq
    have := ih hp
    have := length_lt_of_escape? hescape
    simp only [List.length_cons]
    omega
  | case5 => cases h
  | case6 c rest' _ _ _ ih =>
    obtain ⟨p, hp, heq⟩ := Option.map_eq_some_iff.1 h
    cases heq
    have := ih hp
    simp only [List.length_cons]
    omega

/-! ### Tokens -/

/-- A token of a JSON text. -/
inductive Token where
  | openBrace
  | closeBrace
  | openBracket
  | closeBracket
  | colon
  | comma
  | null
  | bool (value : Bool)
  | number (value : Number)
  | string (value : String)
  deriving DecidableEq, Repr

namespace Token

/-- The token of a punctuation mark. -/
def ofMark? (c : Char) : Option Token :=
  if c = '\x7b' then some .openBrace
  else if c = '\x7d' then some .closeBrace
  else if c = '[' then some .openBracket
  else if c = ']' then some .closeBracket
  else if c = ':' then some .colon
  else if c = ',' then some .comma
  else none

/-- The four characters that may stand between tokens. -/
def isBlank (c : Char) : Bool :=
  c == ' ' || c == '\t' || c == '\n' || c == '\r'

/-- A word goes on with every character that cannot end it. -/
def isWordChar (c : Char) : Bool :=
  !isBlank c && (ofMark? c).isNone && c != quote

/-- The token that a word is. -/
def ofWord? (word : List Char) : Option Token :=
  if word = "null".toList then some .null
  else if word = "true".toList then some (.bool true)
  else if word = "false".toList then some (.bool false)
  else if word = "NaN".toList then some (.number (.float .nan))
  else if word = "Infinity".toList then some (.number (.float (.infinite false)))
  else if word = "-Infinity".toList then some (.number (.float (.infinite true)))
  else (Number.ofChars? word).map .number

/-- The tokens of a text, if it consists of tokens and blanks. -/
def scan (chars : List Char) : Option (List Token) :=
  match chars with
  | [] => some []
  | c :: rest =>
    if isBlank c then
      scan rest
    else if c = quote then
      match _h : stringBody? rest with
      | none => none
      | some (body, rest) => (scan rest).map (.string (String.ofList body) :: ·)
    else
      match ofMark? c with
      | some mark => (scan rest).map (mark :: ·)
      | none =>
        match ofWord? (c :: rest.takeWhile isWordChar) with
        | none => none
        | some word => (scan (rest.dropWhile isWordChar)).map (word :: ·)
termination_by chars.length
decreasing_by
  · simp only [List.length_cons]
    omega
  · have := length_lt_of_stringBody? _h
    simp only [List.length_cons]
    omega
  · simp only [List.length_cons]
    omega
  · have := (rest.dropWhile_suffix isWordChar).length_le
    simp only [List.length_cons]
    omega

end Token

end MachineCode.Json
