import Mathlib
import MachineCode.Settings.Reader

/-!
# Lax validation

What settings rely on where their declarations are interpreted. The rules for simple values are
tables: they list the JSON values that stand for an integer or a truth value, without saying how
these are found. The rules for sections say which values their fields take, and which issues are
reported where some of them take none. Members that are no fields do not occur in these rules.

## Main definitions

* `Json.EqualsInteger`, `Settings.StandsForInteger`, `Settings.StandsForFlag` : which values stand
  for what.
* `Settings.Default.Takes`, `Settings.Section.Takes` : the values that fields take.
* `Settings.Section.issues` : the issues of all fields.
* `Settings.Validator.IsLax` : a validator follows the rules.
-/

namespace MachineCode

/-- A number or a truth value is equal to an integer. True is equal to one, and false to zero. -/
inductive Json.EqualsInteger : Json → Int → Prop
  | integer (n : Int) : EqualsInteger (.number (.integer n)) n
  | float {x : Binary64} {n : Int} (h : x.units? = some (n * Binary64.one)) :
    EqualsInteger (.number (.float x)) n
  | bool (b : Bool) : EqualsInteger (.bool b) b.toInt

namespace Settings

/-! ### Simple values -/

/-- A value stands for an integer: the integer itself, a number without a fraction of at most
sixty-three bits, a truth value, or a string that is the numeral of the integer. -/
inductive StandsForInteger (numeral? : String → Option Int) : Json → Int → Prop
  | integer (n : Int) : StandsForInteger numeral? (.number (.integer n)) n
  | float {x : Binary64} {n : Int} (h : x.units? = some (n * Binary64.one))
    (hn : n.natAbs < 2 ^ 63) : StandsForInteger numeral? (.number (.float x)) n
  | bool (b : Bool) : StandsForInteger numeral? (.bool b) b.toInt
  | string {text : String} {n : Int} (h : numeral? text = some n) :
    StandsForInteger numeral? (.string text) n

/-- The words that stand for a truth value, in small letters. -/
def flagWords : Bool → List String
  | false => ["0", "off", "f", "false", "n", "no"]
  | true => ["1", "on", "t", "true", "y", "yes"]

/-- A value stands for a truth value: the truth value itself, the number zero for false and the
number one for true, or one of some words in letters of either case. -/
inductive StandsForFlag : Json → Bool → Prop
  | bool (b : Bool) : StandsForFlag (.bool b) b
  | number {x : Json.Number} {b : Bool} (h : Json.EqualsInteger (.number x) b.toInt) :
    StandsForFlag (.number x) b
  | string {text : String} {b : Bool}
    (h : String.ofList (text.toList.map Char.toLower) ∈ flagWords b) :
    StandsForFlag (.string text) b

/-- A value that is refused has one issue, at its own place and with the value itself. -/
def Checked.RefusesWhole {α : Type} (outcome : Checked α) (json : Json) : Prop :=
  ∀ issues, outcome = .error issues → ∃ kind, issues = [⟨kind, [], json⟩]

/-! ### Sections -/

/-- An absent field has a value: a fixed one, or one that can be made. -/
inductive Default.IsFor {α : Type} : Default α → α → Prop
  | value (a : α) : IsFor (.value a) a
  | factory {make : Checked α} {a : α} (h : make = .ok a) : IsFor (.factory make) a

/-- A field takes a value in a section: what is given for it passes its check, or nothing is given
and the field can do without. -/
inductive Default.Takes {α : Type} (members : List (String × Json)) (name : String)
    (check : Json → Checked α) (default : Default α) : α → Prop
  | given {json : Json} {a : α} (h : Json.member? members name = some json)
    (ha : check json = .ok a) : Takes members name check default a
  | absent {a : α} (h : Json.member? members name = none) (ha : default.IsFor a) :
    Takes members name check default a

/-- The issues of a field: those of what is given for it, or that it is missing. -/
def Default.issues {α : Type} (members : List (String × Json)) (name : String)
    (check : Json → Checked α) (default : Default α) : List Issue :=
  match Json.member? members name with
  | some json => (check json).issues.map (Issue.within name)
  | none =>
    match default with
    | .required => [⟨.missing, [name], .object members⟩]
    | .value _ | .factory _ => []

/-- All fields of a section take their values. -/
def Section.Takes {α : Type} (members : List (String × Json)) : Section α → α → Prop
  | .empty, () => True
  | .field name default check rest, (a, b) =>
    default.Takes members name check a ∧ rest.Takes members b

/-- The issues of all fields of a section, in the order of their declarations. -/
def Section.issues {α : Type} (members : List (String × Json)) : Section α → List Issue
  | .empty => []
  | .field name default check rest => default.issues members name check ++ rest.issues members

/-- The values that are made for absent fields can be made. -/
def Section.IsMade {α : Type} : Section α → Prop
  | .empty => True
  | .field _ default _ rest => (∀ make, default = .factory make → ∃ a, make = .ok a) ∧ rest.IsMade

section Fields

variable {α : Type} {members : List (String × Json)} {name : String} {check : Json → Checked α}
  {default : Default α} {a b : α}

theorem Default.IsFor.unique (ha : default.IsFor a) (hb : default.IsFor b) : a = b := by
  cases ha with
  | value =>
    cases hb
    rfl
  | factory h =>
    cases hb with
    | factory h' => exact Except.ok.inj (h.symm.trans h')

theorem Default.takes_iff_of_some {json : Json} (h : Json.member? members name = some json) :
    default.Takes members name check a ↔ check json = .ok a := by
  refine ⟨fun htakes => ?_, .given h⟩
  cases htakes with
  | given hjson ha =>
    cases h.symm.trans hjson
    exact ha
  | absent hnone => cases h.symm.trans hnone

theorem Default.takes_iff_of_none (h : Json.member? members name = none) :
    default.Takes members name check a ↔ default.IsFor a := by
  refine ⟨fun htakes => ?_, .absent h⟩
  cases htakes with
  | given hjson => cases h.symm.trans hjson
  | absent _ ha => exact ha

end Fields

/-! ### Rules -/

/-- A validator follows the rules of lax validation, where `numeral?` says which strings are
numerals. -/
structure Validator.IsLax (v : Validator) (numeral? : String → Option Int) : Prop where
  integer_iff : ∀ bounds json n,
    v.integer bounds json = .ok n ↔ StandsForInteger numeral? json n.val
  boolean_iff : ∀ json flag, v.boolean json = .ok flag ↔ StandsForFlag json flag
  literal_iff : ∀ n json, v.literal n json = .ok () ↔ json.EqualsInteger n
  choice_iff : ∀ {α : Type} (words : List (String × α)) json a,
    v.choice words json = .ok a ↔ ∃ text, json = .string text ∧ words.lookup text = some a
  integer_refuses : ∀ bounds json, (v.integer bounds json).RefusesWhole json
  boolean_refuses : ∀ json, (v.boolean json).RefusesWhole json
  literal_refuses : ∀ n json, (v.literal n json).RefusesWhole json
  choice_refuses : ∀ {α : Type} (words : List (String × α)) json,
    (v.choice words json).RefusesWhole json
  /-- An object is accepted if all fields take values, and these are its values. Members that are
  no fields are ignored. -/
  object_iff : ∀ {α : Type} (declared : Section α) members a,
    v.object declared (.object members) = .ok a ↔ declared.Takes members a
  /-- Otherwise the issues are collected in the order of the declarations. -/
  object_issues : ∀ {α : Type} (declared : Section α) members issues, declared.IsMade →
    v.object declared (.object members) = .error issues → issues = declared.issues members
  /-- A value that is not an object is refused as a whole. -/
  object_of_ne : ∀ {α : Type} (declared : Section α) json, (∀ members, json ≠ .object members) →
    v.object declared json = .error [⟨.notAnObject, [], json⟩]
  /-- A call does the same as an object of its arguments. -/
  call_eq : ∀ {α : Type} (declared : Section α) arguments,
    v.call declared arguments = v.object declared (.object arguments)

end Settings

end MachineCode
