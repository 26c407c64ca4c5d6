import MachineCode.Error
import MachineCode.Settings.Basic
import MachineCode.Settings.Standard

/-!
# Reading settings

The declarations of the three sections of settings, one inside of the other, and the settings that
their values make up. Only the version has to be given. The default values of the sections are those
of calls without further arguments.

## Main definitions

* `Settings.declared`, `Settings.Program.declared`, `Settings.Decoder.declared` : the fields of the
  sections.
* `Settings.ofJson`, `Settings.Program.ofJson`, `Settings.Decoder.ofJson` : the settings that a JSON
  value stands for.
* `Settings.parse` : the settings that a text stands for.
-/

namespace MachineCode

namespace Settings

/-! ### The instruction decoder -/

/-- The fields of the settings of the instruction decoder. -/
def Decoder.declared (v : Validator) : Section (Bool × Unit) :=
  .field "direct_address" (.value true) v.boolean .empty

/-- The settings of the instruction decoder with the values of its fields. -/
def Decoder.ofFields : Bool × Unit → Settings.Decoder :=
  fun (directAddress, ()) => { directAddress }

/-- The settings of the instruction decoder that a JSON value stands for. -/
def Decoder.ofJson (v : Validator) (json : Json) : Checked Settings.Decoder :=
  (v.object (declared v) json).map ofFields

/-- The settings of the instruction decoder where none are given. -/
def Decoder.default (v : Validator) : Checked Settings.Decoder :=
  (v.call (declared v) []).map ofFields

/-! ### Programs -/

/-- The addresses that a program can have. -/
def Program.originBounds : Bounds where
  least? := some 0
  greatest? := some maxAddress

/-- The offsets at which decoding can start. -/
def Program.startBounds : Bounds where
  least? := some 0

/-- The values of the fields of the settings of a program. -/
abbrev Program.Fields : Type :=
  { n : Int // originBounds.Admits n } × { n : Int // startBounds.Admits n } × FaultPolicy ×
    Settings.Decoder × Unit

/-- The fields of the settings of a program. -/
def Program.declared (v : Validator) : Section Program.Fields :=
  .field "origin" (.value ⟨0, by decide⟩) (v.integer originBounds) <|
  .field "start" (.value ⟨0, by decide⟩) (v.integer startBounds) <|
  .field "error_policy" (.value .stop) (v.choice FaultPolicy.words) <|
  .field "instructions_decoder" (.factory (Decoder.default v)) (Decoder.ofJson v) .empty

/-- The settings of a program with the values of its fields. -/
def Program.ofFields : Program.Fields → Settings.Program :=
  fun (origin, start, faultPolicy, decoder, ()) =>
    { origin := origin.val.toNat
      start := start.val.toNat
      faultPolicy
      decoder
      origin_le := Int.toNat_le.2 (origin.property.2 _ rfl) }

/-- The settings of a program that a JSON value stands for. -/
def Program.ofJson (v : Validator) (json : Json) : Checked Settings.Program :=
  (v.object (declared v) json).map ofFields

/-- The settings of a program where none are given. -/
def Program.default (v : Validator) : Checked Settings.Program :=
  (v.call (declared v) []).map ofFields

/-! ### Settings -/

/-- The fields of settings. -/
def declared (v : Validator) : Section (Unit × Settings.Program × Unit) :=
  .field "disasm86_version" .required (v.literal version) <|
  .field "program" (.factory (Program.default v)) (Program.ofJson v) .empty

/-- The settings with the values of their fields. -/
def ofFields : Unit × Settings.Program × Unit → Settings :=
  fun ((), program, ()) => { program }

/-- The settings that a JSON value stands for. -/
def ofJson (v : Validator) (json : Json) : Checked Settings :=
  (v.object (declared v) json).map ofFields

/-- The settings where none are given but the version. -/
def default (v : Validator) : Checked Settings :=
  (v.call (declared v) [("disasm86_version", .number (.integer version))]).map ofFields

/-! ### Texts -/

/-- What a text stands for, where `read` says what a JSON value stands for. -/
def parseWith {α : Type} (v : Validator) (read : Json → Checked α) (text : String) :
    Except Error α :=
  let outcome : Checked α :=
    match v.json? text with
    | some json => read json
    | none => .error [⟨.malformed, [], .string text⟩]
  outcome.mapError .invalidSettings

/-- The settings of the instruction decoder that a text stands for. -/
def Decoder.parse : String → Except Error Settings.Decoder :=
  parseWith .standard (ofJson .standard)

/-- The settings of a program that a text stands for. -/
def Program.parse : String → Except Error Settings.Program :=
  parseWith .standard (ofJson .standard)

/-- The settings that a text stands for. -/
def parse : String → Except Error Settings :=
  parseWith .standard (ofJson .standard)

end Settings

end MachineCode
