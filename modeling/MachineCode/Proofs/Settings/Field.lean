import MachineCode.Proofs.Settings.Lax

/-!
# Fields of settings

Settings are three sections, one inside of the other, but they can also be seen as a plain list of
fields, each with a path of names on which it is found. A section is a field as well, which has to
hold an object. This file shows that reading settings under a lax validator does nothing else than
to look at these fields one behind the other: the issues are those of the single fields, in the
order of the list, and where there are none, every field that is given has its converted value, and
all others their default values.

## Main definitions

* `Json.at?` : the value on a path of names.
* `Settings.fields` : the fields of settings, in the order in which they are declared.
* `Settings.Field.issue?` : what is wrong with a single field.
* `Settings.Program.IsMerged` : given values replace default values.

## Main results

* `Settings.settles_ofJson` : reading settings is looking at their fields.
* `Settings.default_eq`, `Settings.Program.default_eq`, `Settings.Decoder.default_eq` : what calls
  without further arguments make.
-/

namespace MachineCode

/-- The value on a path of names. There is none where something on the way to it is not an object,
or does not have the name. -/
def Json.at? : Json → List String → Option Json
  | json, [] => some json
  | .object members, name :: path => (member? members name).bind fun value => value.at? path
  | _, _ :: _ => none

theorem Json.at?_object_singleton (members : List (String × Json)) (name : String) :
    (Json.object members).at? [name] = member? members name :=
  Option.bind_fun_some _

theorem Json.at?_object_cons (members : List (String × Json)) (name : String) :
    (fun path => (Json.object members).at? (name :: path)) =
      match member? members name with
      | none => fun _ => none
      | some value => value.at? := by
  funext path
  rw [at?]
  cases member? members name <;> rfl

namespace Settings

/-! ### Fields on paths -/

/-- A section has to be an object. -/
def sectionIssue? : Json → Option Issue.Kind
  | .object _ => none
  | _ => some .notAnObject

/-- What is wrong with a value that is refused as a whole. -/
def Checked.kind? {α : Type} (outcome : Checked α) : Option Issue.Kind :=
  outcome.issues.head?.map Issue.kind

/-- A field is found on a path. It may be required, and not every value will do for it. -/
structure Field where
  path : List String
  required : Bool
  defect? : Json → Option Issue.Kind

namespace Field

/-- The field, seen from the section around its own one. -/
def within (name : String) (field : Field) : Field :=
  { field with path := name :: field.path }

/-- What is wrong with a field. It depends on nothing but what is found on the path of the field,
and on the section around it if nothing is found. -/
def issue? (json : Json) (field : Field) : Option Issue :=
  match json.at? field.path with
  | some value => (field.defect? value).map fun kind => ⟨kind, field.path, value⟩
  | none =>
    if field.required then
      (json.at? field.path.dropLast).map fun around => ⟨.missing, field.path, around⟩
    else
      none

end Field

/-- The fields of the settings of the instruction decoder. -/
def Decoder.fields (v : Validator) : List Field :=
  [⟨[], false, sectionIssue?⟩,
    ⟨["direct_address"], false, fun value => (v.boolean value).kind?⟩]

/-- The fields of the settings of a program. -/
def Program.fields (v : Validator) : List Field :=
  [⟨[], false, sectionIssue?⟩,
    ⟨["origin"], false, fun value => (v.integer originBounds value).kind?⟩,
    ⟨["start"], false, fun value => (v.integer startBounds value).kind?⟩,
    ⟨["error_policy"], false, fun value => (v.choice FaultPolicy.words value).kind?⟩] ++
  (Decoder.fields v).map (.within "instructions_decoder")

/-- The fields of settings, in the order in which they are declared. -/
def fields (v : Validator) : List Field :=
  ⟨["disasm86_version"], true, fun value => (v.literal version value).kind?⟩ ::
    (Program.fields v).map (.within "program")

theorem Decoder.required_of_mem (v : Validator) :
    ∀ field ∈ Decoder.fields v, field.required = false := by
  simp [fields]

theorem Program.required_of_mem (v : Validator) :
    ∀ field ∈ Program.fields v, field.required = false := by
  simp [fields, Decoder.fields, Field.within]

/-- What is wrong with some fields, in their order. -/
def issuesOf (fields : List Field) (json : Json) : List Issue :=
  fields.filterMap (Field.issue? json)

theorem issuesOf_singleton (field : Field) (json : Json) :
    issuesOf [field] json = (field.issue? json).toList := by
  rw [issuesOf, List.filterMap_cons]
  cases field.issue? json <;> rfl

theorem issuesOf_append (fields others : List Field) (json : Json) :
    issuesOf (fields ++ others) json = issuesOf fields json ++ issuesOf others json :=
  List.filterMap_append

/-- What is wrong with the fields of a section is what is wrong with them in the section itself, if
it is there. -/
theorem issuesOf_within {fields : List Field} (h : ∀ field ∈ fields, field.required = false)
    (members : List (String × Json)) (name : String) :
    issuesOf (fields.map (.within name)) (.object members) =
      match Json.member? members name with
      | none => []
      | some value => (issuesOf fields value).map (Issue.within name) := by
  simp only [issuesOf, List.filterMap_map]
  cases hmember : Json.member? members name with
  | none =>
    refine List.filterMap_eq_nil_iff.2 fun field hfield => ?_
    simp [Field.issue?, Field.within, Json.at?, hmember, h field hfield]
  | some value =>
    simp only [List.map_filterMap]
    refine List.filterMap_congr fun field hfield => ?_
    simp only [Function.comp_apply, Field.issue?, Field.within, Json.at?, hmember,
      Option.bind_some, h field hfield]
    cases value.at? field.path with
    | none => rfl
    | some found => simp only [Option.map_map]; rfl

/-! ### Values and issues -/

/-- Something takes values or has issues: it has exactly these issues, and takes a value, which is
one of these, if there are none. -/
structure Settles {α : Type} (Takes : α → Prop) (found issues : List Issue) (IsValue : α → Prop) :
    Prop where
  found_eq : found = issues
  exists_takes : issues = [] → ∃ a, Takes a
  of_takes : ∀ a, Takes a → issues = [] ∧ IsValue a

/-- A checked value has exactly these issues, and is one of these values if there are none. -/
abbrev Checked.Settles {α : Type} (outcome : Checked α) : List Issue → (α → Prop) → Prop :=
  Settings.Settles (outcome = .ok ·) outcome.issues

/-- So does a field in a section. -/
abbrev Default.Settles {α : Type} (default : Default α) (members : List (String × Json))
    (name : String) (check : Json → Checked α) : List Issue → (α → Prop) → Prop :=
  Settings.Settles (default.Takes members name check) (default.issues members name check)

/-- So do all fields of a section. -/
abbrev Section.Settles {α : Type} (declared : Section α) (members : List (String × Json)) :
    List Issue → (α → Prop) → Prop :=
  Settings.Settles (declared.Takes members) (declared.issues members)

section Settling

variable {α β : Type} {issues more : List Issue} {IsValue : α → Prop} {IsOther : β → Prop}
  {outcome : Checked α}

theorem Settles.mono {Takes : α → Prop} {found : List Issue} {IsMore : α → Prop}
    (h : Settles Takes found issues IsValue) (hvalue : ∀ a, IsValue a → IsMore a) :
    Settles Takes found issues IsMore :=
  ⟨h.found_eq, h.exists_takes, fun a ha => (h.of_takes a ha).imp_right (hvalue a)⟩

theorem Checked.Settles.map (h : outcome.Settles issues IsValue) (f : α → β) :
    Checked.Settles (outcome.map f) issues fun b => ∃ a, IsValue a ∧ b = f a := by
  cases outcome with
  | ok a =>
    obtain ⟨hissues, hvalue⟩ := h.of_takes a rfl
    refine ⟨h.found_eq, fun _ => ⟨_, rfl⟩, ?_⟩
    rintro _ ⟨⟩
    exact ⟨hissues, a, hvalue, rfl⟩
  | error found =>
    refine ⟨h.found_eq, fun hnil => ?_, nofun⟩
    obtain ⟨a, ha⟩ := h.exists_takes hnil
    cases ha

theorem Checked.settles_of_refusesWhole {json : Json} (h : outcome.RefusesWhole json)
    (hvalue : ∀ a, outcome = .ok a → IsValue a) :
    outcome.Settles (outcome.kind?.map fun kind => ⟨kind, [], json⟩).toList IsValue := by
  cases outcome with
  | ok a => exact ⟨rfl, fun _ => ⟨a, rfl⟩, fun b hb => ⟨rfl, hvalue b hb⟩⟩
  | error found =>
    obtain ⟨kind, rfl⟩ := h found rfl
    exact ⟨rfl, nofun, nofun⟩

/-- A field in front of others has its issues in front of theirs. -/
theorem Section.settles_field {members : List (String × Json)} {name : String}
    {default : Default α} {check : Json → Checked α} {rest : Section β}
    (h : default.Settles members name check issues IsValue)
    (hrest : rest.Settles members more IsOther) :
    (Section.field name default check rest).Settles members (issues ++ more)
      fun p => IsValue p.1 ∧ IsOther p.2 where
  found_eq := congrArg₂ (· ++ ·) h.found_eq hrest.found_eq
  exists_takes hnil := by
    obtain ⟨hissues, hmore⟩ := List.append_eq_nil_iff.1 hnil
    obtain ⟨a, ha⟩ := h.exists_takes hissues
    obtain ⟨b, hb⟩ := hrest.exists_takes hmore
    exact ⟨(a, b), ha, hb⟩
  of_takes p hp := by
    obtain ⟨rfl, hvalue⟩ := h.of_takes p.1 hp.1
    obtain ⟨rfl, hother⟩ := hrest.of_takes p.2 hp.2
    exact ⟨rfl, hvalue, hother⟩

theorem Section.settles_empty (members : List (String × Json)) :
    Section.empty.Settles members [] fun _ => True :=
  ⟨rfl, fun _ => ⟨(), trivial⟩, fun _ _ => ⟨rfl, trivial⟩⟩

end Settling

/-! ### Given values -/

/-- A value is what has been given for it, or the default value where nothing has been given. -/
def Given {α : Type} (value? : Option Json) (default : α) (IsValue : Json → α → Prop)
    (a : α) : Prop :=
  match value? with
  | none => a = default
  | some value => IsValue value a

theorem Given.map {α β : Type} {value? : Option Json} {default a : α} {IsValue : Json → α → Prop}
    {IsOther : Json → β → Prop} (h : Given value? default IsValue a) (f : α → β)
    (hvalue : ∀ value a, IsValue value a → IsOther value (f a)) :
    Given value? (f default) IsOther (f a) := by
  cases value? with
  | none => exact congrArg f h
  | some value => exact hvalue value a h

/-- The settings of the instruction decoder are the default ones, with the values that are given on
their paths in the place of some of them. -/
structure Decoder.IsMerged (given : List String → Option Json) (decoder : Settings.Decoder) :
    Prop where
  directAddress : Given (given ["direct_address"]) Decoder.defaults.directAddress StandsForFlag
    decoder.directAddress

/-- The settings of a program are the default ones, with the values that are given on their paths in
the place of some of them. -/
structure Program.IsMerged (numeral? : String → Option Int) (given : List String → Option Json)
    (program : Settings.Program) : Prop where
  origin : Given (given ["origin"]) Program.defaults.origin
    (fun value n => StandsForInteger numeral? value n) program.origin
  start : Given (given ["start"]) Program.defaults.start
    (fun value n => StandsForInteger numeral? value n) program.start
  faultPolicy : Given (given ["error_policy"]) Program.defaults.faultPolicy
    (fun value policy => value = .string policy.text) program.faultPolicy
  decoder : Decoder.IsMerged (fun path => given ("instructions_decoder" :: path)) program.decoder

/-- Settings are the default ones, with the values that are given on their paths in the place of
some of them. -/
def IsMerged (numeral? : String → Option Int) (given : List String → Option Json)
    (settings : Settings) : Prop :=
  Program.IsMerged numeral? (fun path => given ("program" :: path)) settings.program

theorem Decoder.isMerged_defaults : Decoder.IsMerged (fun _ => none) Decoder.defaults :=
  ⟨rfl⟩

theorem Program.isMerged_defaults (numeral? : String → Option Int) :
    Program.IsMerged numeral? (fun _ => none) Program.defaults :=
  ⟨rfl, rfl, rfl, Decoder.isMerged_defaults⟩

/-- What is merged in a section is merged on the paths that start with its name, also where there is
no such section. -/
theorem isMerged_of_given {α : Type} (members : List (String × Json)) (name : String)
    {IsMerged : (List String → Option Json) → α → Prop} {default a : α}
    (hdefault : IsMerged (fun _ => none) default)
    (h : Given (Json.member? members name) default (fun value => IsMerged value.at?) a) :
    IsMerged (fun path => (Json.object members).at? (name :: path)) a := by
  rw [Json.at?_object_cons]
  cases hmember : Json.member? members name with
  | none =>
    rw [hmember] at h
    exact h ▸ hdefault
  | some value =>
    rw [hmember] at h
    exact h

/-! ### Reading -/

section Reading

variable {α : Type} (members : List (String × Json)) (name : String)

/-- A field that is not required has the issues of what is given for it, and takes that or its
default value. -/
theorem settles_given {default : Default α} {a : α} (hdefault : default.IsFor a)
    {check : Json → Checked α} (fields : List Field) {IsValue : Json → α → Prop}
    (hfields : ∀ field ∈ fields, field.required = false)
    (h : ∀ value, (check value).Settles (issuesOf fields value) (IsValue value)) :
    default.Settles members name check
      (issuesOf (fields.map (.within name)) (.object members))
      (Given (Json.member? members name) a IsValue) := by
  rw [issuesOf_within hfields, Default.Settles, Default.issues.eq_def]
  cases hmember : Json.member? members name with
  | some value =>
    refine ⟨congrArg _ (h value).found_eq, fun hnil => ?_, fun b hb => ?_⟩
    · obtain ⟨b, hb⟩ := (h value).exists_takes (List.map_eq_nil_iff.1 hnil)
      exact ⟨b, .given hmember hb⟩
    · obtain ⟨hnil, hvalue⟩ := (h value).of_takes b ((Default.takes_iff_of_some hmember).1 hb)
      exact ⟨List.map_eq_nil_iff.2 hnil, hvalue⟩
  | none =>
    refine ⟨?_, fun _ => ⟨a, .absent hmember hdefault⟩, fun b hb => ⟨rfl, ?_⟩⟩
    · cases hdefault <;> rfl
    · exact ((Default.takes_iff_of_none hmember).1 hb).unique hdefault

/-- A field whose values are accepted or refused as a whole has the issue of its value, if any. -/
theorem settles_given_whole {default : Default α} {a : α} (hdefault : default.IsFor a)
    {check : Json → Checked α} {IsValue : Json → α → Prop}
    (hrefuses : ∀ value, (check value).RefusesWhole value)
    (hvalue : ∀ value b, check value = .ok b → IsValue value b) :
    default.Settles members name check
      (issuesOf [⟨[name], false, fun value => (check value).kind?⟩] (.object members))
      (Given (Json.member? members name) a IsValue) := by
  refine settles_given members name hdefault [⟨[], false, fun value => (check value).kind?⟩]
    (by simp) fun value => ?_
  rw [issuesOf_singleton]
  exact Checked.settles_of_refusesWhole (hrefuses value) (hvalue value)

/-- A required value that is absent has the issue that says so. -/
theorem settles_required {check : Json → Checked α}
    (hrefuses : ∀ value, (check value).RefusesWhole value) :
    Default.required.Settles members name check
      (issuesOf [⟨[name], true, fun value => (check value).kind?⟩] (.object members))
      fun _ => True := by
  rw [issuesOf_singleton, Default.Settles, Default.issues.eq_def, Field.issue?.eq_def]
  cases hmember : Json.member? members name with
  | none =>
    simp only [Json.at?, hmember]
    refine ⟨rfl, nofun, fun a ha => ?_⟩
    cases (Default.takes_iff_of_none hmember).1 ha
  | some value =>
    simp only [Json.at?, hmember, Option.bind_some]
    cases hcheck : check value with
    | ok a => exact ⟨rfl, fun _ => ⟨a, .given hmember hcheck⟩, fun _ _ => ⟨rfl, trivial⟩⟩
    | error found =>
      obtain ⟨kind, rfl⟩ := hrefuses value found hcheck
      refine ⟨rfl, nofun, fun a ha => ?_⟩
      cases hcheck.symm.trans ((Default.takes_iff_of_some hmember).1 ha)

end Reading

section Lax

variable {v : Validator} {numeral? : String → Option Int}

/-- An object is accepted if all of its fields are, and has their issues. -/
theorem Validator.IsLax.settles_members (hv : v.IsLax numeral?) {α β : Type} {declared : Section α}
    (hmade : declared.IsMade) (f : α → β) {members : List (String × Json)} {issues : List Issue}
    {IsValue : β → Prop} (h : declared.Settles members issues fun a => IsValue (f a)) :
    Checked.Settles ((v.object declared (.object members)).map f) issues IsValue := by
  have hobject : (v.object declared (.object members)).Settles issues fun a => IsValue (f a) := by
    refine ⟨?_, fun hnil => ?_, fun a ha => h.of_takes a ((hv.object_iff ..).1 ha)⟩
    · cases hchecked : v.object declared (.object members) with
      | ok a => exact (h.of_takes a ((hv.object_iff ..).1 hchecked)).1.symm
      | error found =>
        rw [← h.found_eq]
        exact hv.object_issues declared members found hmade hchecked
    · obtain ⟨a, ha⟩ := h.exists_takes hnil
      exact ⟨a, (hv.object_iff ..).2 ha⟩
  refine (hobject.map f).mono ?_
  rintro _ ⟨a, ha, rfl⟩
  exact ha

/-! ### The three sections -/

theorem Decoder.isMade_declared (v : Validator) : (Decoder.declared v).IsMade :=
  ⟨nofun, trivial⟩

/-- A call makes the default settings of the instruction decoder. -/
theorem Decoder.default_eq (hv : v.IsLax numeral?) :
    Decoder.default v = .ok Decoder.defaults := by
  have htakes : (Decoder.declared v).Takes [] (true, ()) := ⟨.absent rfl (.value true), trivial⟩
  rw [Decoder.default, hv.call_eq, (hv.object_iff ..).2 htakes]
  rfl

/-- The settings of the instruction decoder are read field by field. -/
theorem Decoder.settles_ofJson (hv : v.IsLax numeral?) (json : Json) :
    (Decoder.ofJson v json).Settles (issuesOf (Decoder.fields v) json)
      (Decoder.IsMerged json.at?) := by
  cases json with
  | object members =>
    have hflag := settles_given_whole members "direct_address" (.value true) hv.boolean_refuses
      fun value b => (hv.boolean_iff value b).1
    have hfields := Section.settles_field hflag (Section.settles_empty members)
    rw [List.append_nil] at hfields
    refine hv.settles_members (Decoder.isMade_declared v) _ (hfields.mono fun p hp => ⟨?_⟩)
    rw [Json.at?_object_singleton]
    exact hp.1
  | _ =>
    rw [Checked.Settles, Decoder.ofJson, hv.object_of_ne]
    · exact ⟨rfl, nofun, nofun⟩
    · nofun

theorem Program.isMade_declared (hv : v.IsLax numeral?) : (Program.declared v).IsMade := by
  refine ⟨nofun, nofun, nofun, ?_, trivial⟩
  rintro _ ⟨⟩
  exact ⟨_, Decoder.default_eq hv⟩

/-- A call makes the default settings of a program. -/
theorem Program.default_eq (hv : v.IsLax numeral?) :
    Program.default v = .ok Program.defaults := by
  have htakes : (Program.declared v).Takes []
      (⟨0, by decide⟩, ⟨0, by decide⟩, .stop, Decoder.defaults, ()) :=
    ⟨.absent rfl (.value _), .absent rfl (.value _), .absent rfl (.value _),
      .absent rfl (.factory (Decoder.default_eq hv)), trivial⟩
  rw [Program.default, hv.call_eq, (hv.object_iff ..).2 htakes]
  rfl

theorem StandsForInteger.toNat {value : Json} {n : Int} (h : StandsForInteger numeral? value n)
    (hn : 0 ≤ n) : StandsForInteger numeral? value n.toNat := by
  rwa [Int.toNat_of_nonneg hn]

/-- The settings of a program are read field by field. -/
theorem Program.settles_ofJson (hv : v.IsLax numeral?) (json : Json) :
    (Program.ofJson v json).Settles (issuesOf (Program.fields v) json)
      (Program.IsMerged numeral? json.at?) := by
  cases json with
  | object members =>
    have horigin := settles_given_whole members "origin" (.value ⟨0, by decide⟩)
      (hv.integer_refuses originBounds) fun value n => (hv.integer_iff originBounds value n).1
    have hstart := settles_given_whole members "start" (.value ⟨0, by decide⟩)
      (hv.integer_refuses startBounds) fun value n => (hv.integer_iff startBounds value n).1
    have hpolicy := settles_given_whole members "error_policy" (.value FaultPolicy.stop)
      (hv.choice_refuses FaultPolicy.words) fun value policy =>
        (hv.choice_iff FaultPolicy.words value policy).1
    have hdecoder := settles_given members "instructions_decoder"
      (.factory (Decoder.default_eq hv)) (Decoder.fields v) (Decoder.required_of_mem v)
      (Decoder.settles_ofJson hv)
    have hfields := Section.settles_field horigin <| Section.settles_field hstart <|
      Section.settles_field hpolicy <| Section.settles_field hdecoder <|
      Section.settles_empty members
    simp only [← issuesOf_append, List.append_nil] at hfields
    refine hv.settles_members (Program.isMade_declared hv) _ (hfields.mono fun p hp => ?_)
    obtain ⟨horigin, hstart, hpolicy, hdecoder, -⟩ := hp
    refine ⟨?_, ?_, ?_, ?_⟩
    · rw [Json.at?_object_singleton]
      exact horigin.map (fun n => n.val.toNat) fun value n h => h.toNat (n.property.1 _ rfl)
    · rw [Json.at?_object_singleton]
      exact hstart.map (fun n => n.val.toNat) fun value n h => h.toNat (n.property.1 _ rfl)
    · rw [Json.at?_object_singleton]
      refine hpolicy.map id fun value policy h => ?_
      obtain ⟨text, rfl, htext⟩ := h
      rw [FaultPolicy.lookup_words_eq_some_iff.1 htext]
      rfl
    · exact isMerged_of_given members _ Decoder.isMerged_defaults hdecoder
  | _ =>
    rw [Checked.Settles, Program.ofJson, hv.object_of_ne]
    · exact ⟨rfl, nofun, nofun⟩
    · nofun

theorem isMade_declared (hv : v.IsLax numeral?) : (declared v).IsMade := by
  refine ⟨nofun, ?_, trivial⟩
  rintro _ ⟨⟩
  exact ⟨_, Program.default_eq hv⟩

/-- A call with the version alone makes the default settings. -/
theorem default_eq (hv : v.IsLax numeral?) : default v = .ok defaults := by
  have htakes : (declared v).Takes [("disasm86_version", .number (.integer version))]
      ((), Program.defaults, ()) :=
    ⟨.given rfl ((hv.literal_iff ..).2 (.integer _)),
      .absent rfl (.factory (Program.default_eq hv)), trivial⟩
  rw [default, hv.call_eq, (hv.object_iff ..).2 htakes]
  rfl

/-- Settings are read field by field. -/
theorem settles_ofJson (hv : v.IsLax numeral?) (members : List (String × Json)) :
    (ofJson v (.object members)).Settles (issuesOf (fields v) (.object members))
      (IsMerged numeral? (Json.object members).at?) := by
  have hversion := settles_required members "disasm86_version" (hv.literal_refuses version)
  have hprogram := settles_given members "program" (.factory (Program.default_eq hv))
    (Program.fields v) (Program.required_of_mem v) (Program.settles_ofJson hv)
  have hfields := Section.settles_field hversion <| Section.settles_field hprogram <|
    Section.settles_empty members
  rw [List.append_nil, ← issuesOf_append] at hfields
  refine hv.settles_members (isMade_declared hv) _ (hfields.mono fun p hp => ?_)
  exact isMerged_of_given members _ (Program.isMerged_defaults numeral?) hp.2.1

end Lax

end Settings

end MachineCode
