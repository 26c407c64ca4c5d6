import MachineCode.Numeral.Binary64

/-!
# JSON values

The values that a JSON text can denote. A number is an integer or a number of the binary64 format,
as it is written, and objects keep all their members in the order in which they are written. Where a
name occurs more than once, the last member with that name counts.

## Main definitions

* `Json` : a JSON value.
* `Json.member?` : the member of an object with a name.
-/

namespace MachineCode

/-- A number is written as an integer, or with a fraction or an exponent. It may also be one of the
words for what is not finite. -/
inductive Json.Number where
  | integer (value : Int)
  | float (value : Binary64)
  deriving DecidableEq, Repr

/-- A JSON value. -/
inductive Json where
  | null
  | bool (value : Bool)
  | number (value : Json.Number)
  | string (value : String)
  | array (items : List Json)
  | object (members : List (String × Json))
  deriving Repr

namespace Json

/-- The value of the last member with a name. -/
def member? (members : List (String × Json)) (name : String) : Option Json :=
  (members.findRev? fun member => member.1 == name).map Prod.snd

end Json

end MachineCode
