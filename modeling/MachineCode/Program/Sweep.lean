import MachineCode.Instruction.Progress
import MachineCode.Log
import MachineCode.Program.Basic

/-!
# Decoding a whole program

A binary is decoded from its start offset to its end, one instruction behind the other. What is
found on the way is a list of events: instructions and failures in the order of their addresses, of
which the program is made at the end. Messages are left in the log while the sweep goes on, and stay
there if it ends with an error. The sweep ends because every step that goes on moves the position
on.

## Main definitions

* `Program.Event` : what is found while a program is decoded.
* `Program.step`, `Program.events` : the steps of a sweep over a binary, and all its events.
* `Program.run` : the program that a sweep finds, and the messages that it leaves.
* `Program.decode` : the program together with its log, where there is a program.
-/

namespace MachineCode

namespace Program

/-- What is found while a program is decoded. -/
inductive Event where
  /-- An instruction is decoded. -/
  | decoded (instruction : Instruction)
  /-- A fault is recorded. -/
  | failed (failure : Failure)
  deriving DecidableEq, Repr

namespace Event

/-- The instruction that an event decodes, if it decodes one. -/
def instruction? : Event → Option Instruction
  | .decoded instruction => some instruction
  | .failed _ => none

/-- The failure that an event records, if it records one. -/
def failure? : Event → Option Failure
  | .decoded _ => none
  | .failed failure => some failure

end Event

/-! ### Messages -/

/-- The message about a fault that is not raised, at a byte with an address. -/
def warning (address : Int) (offset : Nat) (fault : Fault) : Log.Message where
  level := .warning
  text := "Unable to decode instruction at " ++ Numeral.address address ++ " (offset " ++
    Numeral.offset offset ++ "): " ++ fault.message

/-- The message about an end in front of the end of the binary. -/
def notice (address : Int) : Log.Message where
  level := .info
  text := "Decoding stopped at " ++ Numeral.address address

/-! ### Steps -/

variable {image : Image}

/-- A step of a sweep either goes on behind an event, at a later position, or ends the sweep with a
failure. -/
inductive Step (reader : BitReader image) where
  | proceed (event : Event) (next : BitReader image) (lt : reader.position < next.position)
  | finish (failure : Failure)

/-- The address at which a byte of the binary is loaded. -/
def addressOf (settings : Settings.Program) (offset : Nat) : Int :=
  settings.origin + (offset - settings.start)

/-- The failure that a fault at a byte of the binary is recorded as. -/
def failureAt (settings : Settings.Program) (offset : Nat) (fault : Fault) :
    Except Error Failure :=
  match Failure.ofFields? (addressOf settings offset) offset fault with
  | some failure => .ok failure
  | none => .error .outOfRange

/-- A fault that is not stepped over ends the sweep, and a message says so. -/
def halt (settings : Settings.Program) (reader : BitReader image) (failure : Failure) :
    Logged (Step reader) := do
  Logged.leave (notice (addressOf settings reader.byteIndex))
  return .finish failure

/-- A step behind a byte that is at least one byte long moves on from every bit of that byte. -/
theorem position_lt_of_atByte? {reader next : BitReader image} {count : Int} (hcount : 0 < count)
    (h : BitReader.atByte? image (reader.byteIndex + count) 0 = some next) :
    reader.position < next.position := by
  have := BitReader.position_atByte? h
  unfold BitReader.byteIndex at this
  omega

/-- What a sweep finds at a position: an instruction, or a fault that is treated as the settings
say. A fault that is not raised is reported before anything else is done about it. -/
def step (settings : Settings.Program) (reader : BitReader image) : Logged (Step reader) :=
  let address := addressOf settings reader.byteIndex
  match h : Decoder.instructionAt settings.decoder address reader with
  | .ok (instruction, next) =>
    return .proceed (.decoded instruction) next (Decoder.position_lt_of_instructionAt h)
  | .error (.decode fault) =>
    if settings.faultPolicy = .raise then
      Logged.fail (.decode fault)
    else do
      Logged.leave (warning address reader.byteIndex fault)
      let failure ← failureAt settings reader.byteIndex fault
      match hskip : fault.skip? with
      | none => halt settings reader failure
      | some count =>
        if settings.faultPolicy = .stop then
          halt settings reader failure
        else
          match hnext : BitReader.atByte? image (reader.byteIndex + count) 0 with
          | some next =>
            return .proceed (.failed failure) next
              (position_lt_of_atByte? (Decoder.skip_pos_of_instructionAt h hskip) hnext)
          | none => Logged.fail .outOfRange
  | .error error => Logged.fail error

/-! ### Sweeps -/

/-- The events of a sweep from a position to the end of the image. -/
def eventsFrom (settings : Settings.Program) (reader : BitReader image) : Logged (List Event) :=
  if reader.atEnd = true then
    return []
  else do
    match ← step settings reader with
    | .finish failure => return [.failed failure]
    | .proceed event next _lt => return event :: (← eventsFrom settings next)
termination_by reader.remaining
decreasing_by
  have := reader.position_add_remaining
  have := next.position_add_remaining
  omega

/-- The events of a sweep over a binary, from the offset at which the settings let it start. -/
def events (settings : Settings.Program) (image : Image) : Logged (List Event) :=
  if settings.start ≤ image.size then
    match BitReader.atByte? image settings.start 0 with
    | some reader => eventsFrom settings reader
    | none => Logged.fail .outOfRange
  else
    Logged.fail (.startPastEnd settings.start image.size)

/-- The program that the events of a sweep describe. -/
def ofEvents? (settings : Settings.Program) (image : Image) (events : List Event) :
    Option Program :=
  ofParts? settings.origin (image.extract settings.start image.size)
    (events.filterMap Event.instruction?) (events.filterMap Event.failure?)

/-- Decodes a binary as the settings say. -/
def run (settings : Settings.Program) (image : Image) : Logged Program := do
  let events ← events settings image
  match ofEvents? settings image events with
  | some program => return program
  | none => Logged.fail .outOfRange

end Program

/-- A program, together with the messages that its decoding left in the log. -/
structure Decoding where
  program : Program
  log : List Log.Message

/-- A program that has been decoded, with the log, or the error that there is instead. -/
def Logged.decoding (decoded : Logged Program) : Except Error Decoding :=
  decoded.outcome.map fun program => ⟨program, decoded.messages⟩

/-- Decodes a binary as the settings say, and keeps the log where there is a program. -/
def Program.decode (settings : Settings.Program) (image : Image) : Except Error Decoding :=
  (run settings image).decoding

end MachineCode
