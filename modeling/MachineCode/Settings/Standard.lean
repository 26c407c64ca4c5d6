import MachineCode.Json.Reader
import MachineCode.Settings.Conversion

/-!
# The standard validator

A validator with lenient conversions. It looks at the fields of a section in the order in which they
are declared, and reports all that is wrong with them. Members that are no fields do not count.

## Main definitions

* `Settings.Section.read` : the values of the fields of a section.
* `Settings.Validator.standard` : the validator.
-/

namespace MachineCode.Settings

namespace Checked

variable {α β : Type}

/-- Combines two values that are checked independently of each other. The issues of the first come
first. -/
def both : Checked α → Checked β → Checked (α × β)
  | .ok a, .ok b => .ok (a, b)
  | .ok _, .error issues => .error issues
  | .error issues, .ok _ => .error issues
  | .error first, .error second => .error (first ++ second)

/-- The outcome of a conversion; its issue is one of the converted value itself. -/
def ofConversion (json : Json) (outcome : Except Issue.Kind α) : Checked α :=
  outcome.mapError fun kind => [⟨kind, [], json⟩]

end Checked

/-- The value of a field in a section: what is given for it, or what becomes of it where nothing
is. -/
def Default.read {α : Type} (default : Default α) (name : String) (check : Json → Checked α)
    (members : List (String × Json)) : Checked α :=
  match Json.member? members name with
  | some json => (check json).within name
  | none =>
    match default with
    | .required => .error [⟨.missing, [name], .object members⟩]
    | .value a => .ok a
    | .factory make => make

/-- The values of the fields of a section with some members. -/
def Section.read {α : Type} : Section α → List (String × Json) → Checked α
  | .empty, _ => .ok ()
  | .field name default check rest, members =>
    (default.read name check members).both (rest.read members)

/-- The value of an object whose members are the fields of a section. -/
def Section.ofJson {α : Type} (declared : Section α) (json : Json) : Checked α :=
  match json with
  | .object members => declared.read members
  | _ => .error [⟨.notAnObject, [], json⟩]

/-- The validator with lenient conversions. -/
def Validator.standard : Validator where
  json? := Json.ofText?
  integer bounds json := .ofConversion json (Conversion.integerWithin bounds json)
  boolean json := .ofConversion json (Conversion.boolean json)
  literal n json := .ofConversion json (Conversion.literal n json)
  choice words json := .ofConversion json (Conversion.choice words json)
  object declared json := declared.ofJson json
  call declared arguments := declared.read arguments

end MachineCode.Settings
