import MachineCode.Json.Token
import MachineCode.Numeral.Standard
import MachineCode.Settings.Schema

/-!
# Lenient conversions

Which JSON values stand for integers, truth values and words. The conversions are lenient: a truth
value stands for an integer and the other way round, a number without a fraction stands for an
integer in either format, and strings may hold numerals or words.

## Main definitions

* `Conversion.integer` : the integer that a value stands for.
* `Conversion.boolean` : the truth value that a value stands for.
* `Conversion.choice` : what a word stands for.
-/

namespace MachineCode.Settings.Conversion

/-! ### Integers -/

/-- The integer that a numeral in standard form denotes. A numeral that starts with too many digits
is too long, whatever follows them. -/
def integerOfStandardForm (chars : List Char) : Except Issue.Kind Int :=
  let negative := chars.head? == some '-'
  let whole := (if negative then chars.drop 1 else chars).takeWhile Char.isDigit
  if whole.head? != some '0' && Json.Number.isOverlong negative whole then
    .error .oversizedInteger
  else
    match Json.Number.ofChars? chars with
    | some (.integer value) => .ok value
    | some (.float _) | none => .error .unreadableInteger

/-- The integer that a numeral denotes: a sign if there is one, digits with single underscores
between them, and a point with zeros if there is one. White space around the numeral does not count,
and neither do leading zeros and any underscores behind them. -/
def integerOfText (text : String) : Except Issue.Kind Int :=
  match Numeral.standardForm? text with
  | some chars => integerOfStandardForm chars
  | none => .error .unreadableInteger

/-- The integer that a number of the binary64 format is. It has to have at most sixty-three bits. -/
def integerOfFloat (value : Binary64) : Except Issue.Kind Int :=
  match value.units? with
  | none => .error .infiniteInteger
  | some units =>
    if units % Binary64.one = 0 then
      let n := units / Binary64.one
      if n.natAbs < 1 <<< 63 then .ok n else .error .oversizedInteger
    else
      .error .fractionalInteger

/-- The integer that a value stands for. -/
def integer : Json → Except Issue.Kind Int
  | .bool value => .ok value.toInt
  | .number (.integer value) => .ok value
  | .number (.float value) => integerOfFloat value
  | .string text => integerOfText text
  | .null | .array _ | .object _ => .error .notAnInteger

/-- What is wrong with an integer that does not lie between the bounds. -/
def violation (bounds : Bounds) (n : Int) : Issue.Kind :=
  match bounds.least?.filter (n < ·) with
  | some least => .below least
  | none => .above (bounds.greatest?.getD n)

/-- The integer between bounds that a value stands for. -/
def integerWithin (bounds : Bounds) (json : Json) :
    Except Issue.Kind { n : Int // bounds.Admits n } := do
  let n ← integer json
  if h : bounds.Admits n then return ⟨n, h⟩ else throw (violation bounds n)

/-! ### Truth values -/

/-- The words that stand for false, in small letters. -/
def falseWords : List String :=
  ["0", "off", "f", "false", "n", "no"]

/-- The words that stand for true, in small letters. -/
def trueWords : List String :=
  ["1", "on", "t", "true", "y", "yes"]

/-- The truth value that an integer stands for: zero is false and one is true. -/
def booleanOfInteger (value : Int) : Except Issue.Kind Bool :=
  if value = 0 then .ok false
  else if value = 1 then .ok true
  else .error .unreadableBoolean

/-- The truth value that a word stands for, in letters of either case. -/
def booleanOfText (text : String) : Except Issue.Kind Bool :=
  let word := String.ofList (text.toList.map Char.toLower)
  if word ∈ falseWords then .ok false
  else if word ∈ trueWords then .ok true
  else .error .unreadableBoolean

/-- The integer has more than eighteen digits. -/
def isLong (value : Int) : Bool :=
  1000000000000000000 ≤ value.natAbs

/-- The truth value that a value stands for. Long integers are not looked at. -/
def boolean : Json → Except Issue.Kind Bool
  | .bool value => .ok value
  | .number (.integer value) =>
    if isLong value then .error .notABoolean else booleanOfInteger value
  | .number (.float value) =>
    match integerOfFloat value with
    | .ok n => booleanOfInteger n
    | .error _ => .error .notABoolean
  | .string text => booleanOfText text
  | .null | .array _ | .object _ => .error .notABoolean

/-! ### Words and single integers -/

/-- What a word out of some words stands for. Only the exact words do. -/
def choice {α : Type} (words : List (String × α)) (json : Json) : Except Issue.Kind α :=
  match json with
  | .string text =>
    match words.lookup text with
    | some a => .ok a
    | none => .error (.notAmong (words.map Prod.fst))
  | _ => .error (.notAmong (words.map Prod.fst))

/-- The integer is one of sixty-four bits, in two's complement. -/
def fitsWord (value : Int) : Bool :=
  -(1 <<< 63) ≤ value && value < 1 <<< 63

/-- The value has to be equal to an integer, as a number of either format or as a truth value. -/
def literal (n : Int) : Json → Except Issue.Kind Unit
  | .bool value => if value.toInt = n then .ok () else .error (.notLiteral n)
  | .number (.integer value) =>
    if value = n then .ok ()
    else if fitsWord value then .error (.notLiteral n)
    else .error .oversizedInteger
  | .number (.float value) =>
    if value.units? = some (n * Binary64.one) then .ok () else .error (.notLiteral n)
  | _ => .error (.notLiteral n)

end MachineCode.Settings.Conversion
