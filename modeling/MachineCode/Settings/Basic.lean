/-!
# Settings

The settings of the instruction decoder and of the decoding of a whole program, with their default
values.

## Main definitions

* `Settings.Decoder` : how single instructions are decoded.
* `Settings.Program` : where a program lies and what is done about faults.
* `Settings` : the settings that a user can give.
-/

namespace MachineCode

/-- How single instructions are decoded. -/
structure Settings.Decoder where
  /-- Whether the place of a bare `bp` encodes an address without a base, as the processor has
  it. -/
  directAddress : Bool := true
  deriving DecidableEq, Repr

/-- What is done when an instruction does not decode. -/
inductive Settings.FaultPolicy where
  /-- The fault is recorded and decoding ends. -/
  | stop
  /-- The fault is recorded and decoding goes on behind it. -/
  | skip
  /-- The fault is the result. -/
  | raise
  deriving DecidableEq, Repr

namespace Settings

/-- The highest address that twenty address lines can name. -/
def maxAddress : Nat :=
  0xFFFFF

/-- Where a program lies, where its decoding starts and what is done about faults. -/
structure Program where
  /-- The address of the first decoded byte. -/
  origin : Nat := 0
  /-- The offset in the binary at which decoding starts. -/
  start : Nat := 0
  faultPolicy : FaultPolicy := .stop
  decoder : Settings.Decoder := {}
  origin_le : origin ≤ maxAddress := by decide
  deriving DecidableEq, Repr

/-- The word that selects a policy. -/
def FaultPolicy.text : FaultPolicy → String
  | .stop => "stop"
  | .skip => "skip"
  | .raise => "raise"

/-- The words that select policies. -/
def FaultPolicy.words : List (String × FaultPolicy) :=
  [.stop, .skip, .raise].map fun policy => (policy.text, policy)

theorem FaultPolicy.lookup_words_eq_some_iff {text : String} {policy : FaultPolicy} :
    words.lookup text = some policy ↔ text = policy.text := by
  constructor
  · intro h
    obtain ⟨front, back, hwords, -⟩ := List.lookup_eq_some_iff.1 h
    have hmem : (text, policy) ∈ words := hwords ▸ List.mem_append_cons_self
    obtain ⟨_, -, ⟨⟩⟩ := List.mem_map.1 hmem
    rfl
  · rintro rfl
    cases policy <;> decide

/-- The settings of the instruction decoder where none are given. -/
def Decoder.defaults : Settings.Decoder :=
  {}

/-- The settings of a program where none are given. -/
def Program.defaults : Settings.Program :=
  {}

/-- The version of the settings format. -/
def version : Nat :=
  1

end Settings

/-- The settings that a user can give. -/
structure Settings where
  program : Settings.Program
  deriving DecidableEq, Repr

/-- The settings where a user gives none. -/
def Settings.defaults : Settings :=
  ⟨Settings.Program.defaults⟩

end MachineCode
