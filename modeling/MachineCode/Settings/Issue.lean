import MachineCode.Json.Basic
import MachineCode.Numeral

/-!
# Issues of a settings text

What can be wrong with a settings text: the kinds of issue, the place of an issue in the text and
what stands there, and its wording.
-/

namespace MachineCode.Settings

/-- What is wrong with one value of a settings text. -/
inductive Issue.Kind where
  /-- The text is not a JSON value. -/
  | malformed
  /-- A section is not an object. -/
  | notAnObject
  /-- A required field is absent. -/
  | missing
  /-- A value other than the only admissible one. -/
  | notLiteral (expected : Int)
  /-- A value of a type that stands for no integer. -/
  | notAnInteger
  /-- A string that is not the numeral of an integer. -/
  | unreadableInteger
  /-- A number with a fractional part where an integer is due. -/
  | fractionalInteger
  /-- A number that is not finite where an integer is due. -/
  | infiniteInteger
  /-- An integer with more bits or digits than are looked at. -/
  | oversizedInteger
  /-- An integer below the least admissible one. -/
  | below (least : Int)
  /-- An integer above the greatest admissible one. -/
  | above (greatest : Int)
  /-- A value of a type that stands for no truth value. -/
  | notABoolean
  /-- A string or number that names no truth value. -/
  | unreadableBoolean
  /-- A value that is none of some words. -/
  | notAmong (words : List String)
  deriving DecidableEq, Repr

/-- An issue is a kind of defect at a place, given by the field names on the way to it, together
with the value that is refused. Where a field is missing, that is the section in which it is
missing. -/
structure Issue where
  kind : Issue.Kind
  path : List String
  input : Json
  deriving Repr

namespace Issue

/-- The identifier of a kind of issue. -/
def Kind.name : Kind → String
  | .malformed => "json_invalid"
  | .notAnObject => "model_type"
  | .missing => "missing"
  | .notLiteral _ => "literal_error"
  | .notAnInteger => "int_type"
  | .unreadableInteger => "int_parsing"
  | .fractionalInteger => "int_from_float"
  | .infiniteInteger => "finite_number"
  | .oversizedInteger => "int_parsing_size"
  | .below _ => "greater_than_equal"
  | .above _ => "less_than_equal"
  | .notABoolean => "bool_type"
  | .unreadableBoolean => "bool_parsing"
  | .notAmong _ => "enum"

/-- The words between which there is a choice, in quotation marks. -/
def alternatives : List String → String
  | [] => ""
  | [word] => "'" ++ word ++ "'"
  | [word, last] => "'" ++ word ++ "' or '" ++ last ++ "'"
  | word :: rest => "'" ++ word ++ "', " ++ alternatives rest

/-- A kind of issue in words. A malformed text is reported without further words. -/
def Kind.message? : Kind → Option String
  | .malformed => none
  | .notAnObject => some "Input should be an object"
  | .missing => some "Field required"
  | .notLiteral expected => some ("Input should be " ++ Numeral.decimal expected)
  | .notAnInteger => some "Input should be a valid integer"
  | .unreadableInteger =>
    some "Input should be a valid integer, unable to parse string as an integer"
  | .fractionalInteger =>
    some "Input should be a valid integer, got a number with a fractional part"
  | .infiniteInteger => some "Input should be a finite number"
  | .oversizedInteger => some "Unable to parse input string as an integer, exceeded maximum size"
  | .below least => some ("Input should be greater than or equal to " ++ Numeral.decimal least)
  | .above greatest => some ("Input should be less than or equal to " ++ Numeral.decimal greatest)
  | .notABoolean => some "Input should be a valid boolean"
  | .unreadableBoolean => some "Input should be a valid boolean, unable to interpret input"
  | .notAmong words => some ("Input should be " ++ alternatives words)

/-- The issue, seen from the section that contains the field `name`. -/
def within (name : String) (issue : Issue) : Issue :=
  { issue with path := name :: issue.path }

end Issue

end MachineCode.Settings
