import MachineCode.Settings.Issue

/-!
# Declarations of settings

A section of settings is declared field by field: each field has a name, a default value if it can
do without a given one, and a check of the values that are given. Declarations do nothing by
themselves. They are interpreted by a validator, which also provides the checks of simple values;
nothing is said here about what a validator does.

## Main definitions

* `Settings.Checked` : a value, or the issues for which there is none.
* `Settings.Section` : the declaration of a section.
* `Settings.Validator` : what interprets declarations.
-/

namespace MachineCode.Settings

/-- A value, or the issues for which there is none. -/
abbrev Checked := Except (List Issue)

namespace Checked

variable {α : Type}

/-- The issues for which there is no value. -/
def issues : Checked α → List Issue
  | .ok _ => []
  | .error issues => issues

/-- The outcome for a field, seen from the section that contains it. -/
def within (name : String) (outcome : Checked α) : Checked α :=
  outcome.mapError fun issues => issues.map (Issue.within name)

end Checked

/-- The least and the greatest admissible integer, where there are such. -/
structure Bounds where
  least? : Option Int := none
  greatest? : Option Int := none
  deriving DecidableEq, Repr

/-- An integer lies between the bounds. -/
def Bounds.Admits (bounds : Bounds) (n : Int) : Prop :=
  (∀ least ∈ bounds.least?, least ≤ n) ∧ ∀ greatest ∈ bounds.greatest?, n ≤ greatest

instance Bounds.Admits.decidable (bounds : Bounds) (n : Int) : Decidable (bounds.Admits n) :=
  inferInstanceAs (Decidable (_ ∧ _))

/-- What becomes of a field that is absent. -/
inductive Default (α : Type) where
  /-- The field must not be absent. -/
  | required
  /-- The field has a fixed value. -/
  | value (a : α)
  /-- The value of the field is made when it is needed. -/
  | factory (make : Checked α)

/-- The declaration of a section: its fields in their order. -/
inductive Section : Type → Type 1
  /-- There are no fields. -/
  | empty : Section Unit
  /-- There is a field in front of others, with a check of the values that are given for it. -/
  | field {α β : Type} (name : String) (default : Default α) (check : Json → Checked α)
    (rest : Section β) : Section (α × β)

/-- What interprets declarations. Its parts check values: integers between bounds, truth values, a
single integer, one of some words, and an object whose members are the fields of a section. A
section can also be made by a call, with its members as the arguments. -/
structure Validator where
  /-- The value that a text denotes, if the text is a JSON text. -/
  json? (text : String) : Option Json
  integer (bounds : Bounds) (json : Json) : Checked { n : Int // bounds.Admits n }
  boolean (json : Json) : Checked Bool
  literal (n : Int) (json : Json) : Checked Unit
  choice {α : Type} (words : List (String × α)) (json : Json) : Checked α
  object {α : Type} (declared : Section α) (json : Json) : Checked α
  call {α : Type} (declared : Section α) (arguments : List (String × Json)) : Checked α

end MachineCode.Settings
