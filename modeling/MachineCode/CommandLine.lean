import MachineCode.Program.Load
import MachineCode.Report.Disassembly

/-!
# The command line

The commands, how they are given by arguments, and what each of them prints. Options stand in front
of the command to which they belong, and two hyphens end them.

## Main definitions

* `CommandLine.Request` : what the arguments ask for.
* `CommandLine.Request.ofArguments` : how arguments are understood.
* `CommandLine.run` : the outcome of a request.
-/

namespace MachineCode.CommandLine

/-- What can be asked for. -/
inductive Command where
  /-- The version of the program. -/
  | version
  /-- The disassembly of a binary, under the settings of a file, if one is named. -/
  | disassemble (binary : String) (settings? : Option String)
  /-- The listing of a binary, under the settings of a file, if one is named. -/
  | listing (binary : String) (settings? : Option String)
  deriving DecidableEq, Repr

/-- What arguments ask for. There is no command if they are not understood. A request that is not
understood is quiet only if the name of the first command was. -/
structure Request where
  quiet : Bool
  command? : Option Command
  deriving DecidableEq, Repr

/-! ### Arguments -/

/-- An argument that starts with a hyphen and has something behind it is an option. -/
def isOption (argument : String) : Bool :=
  argument.toList.head? == some '-' && argument.length != 1

/-- The options that ask for quiet: the long one, or a group of the short one. -/
def isQuiet (argument : String) : Bool :=
  argument == "--quiet" || (argument.length != 1 && argument.toList.head? == some '-' &&
    (argument.toList.drop 1).all (· == 'q'))

/-- The arguments behind the options in front of a command, and whether the options ask for quiet.
There are none if an option is not known. -/
def takeOptions (quiet : Bool) : List String → Option (Bool × List String)
  | [] => some (quiet, [])
  | argument :: rest =>
    if argument = "--" then some (quiet, rest)
    else if isQuiet argument then takeOptions true rest
    else if isOption argument then none
    else some (quiet, argument :: rest)

/-- The arguments of a command without options. Behind two hyphens every argument is taken as it
is. -/
def positionals : List String → Option (List String)
  | [] => some []
  | argument :: rest =>
    if argument = "--" then some rest
    else if isOption argument then none
    else (positionals rest).map (argument :: ·)

/-- The arguments behind the place where a command without options has them. -/
def takeNoOptions : List String → Option (List String)
  | [] => some []
  | argument :: rest =>
    if argument = "--" then some rest
    else if isOption argument then none
    else some (argument :: rest)

/-- The command on a binary and a settings file that arguments name. -/
def onFiles? (command : String → Option String → Command) (arguments : List String) :
    Option Command :=
  match positionals arguments with
  | some [binary] => some (command binary none)
  | some [binary, settings] => some (command binary (some settings))
  | _ => none

/-- The command on raw images that arguments ask for. -/
def rawImageCommand? (arguments : List String) : Option Command :=
  match takeNoOptions arguments with
  | some (name :: rest) =>
    if name = "disassemble" then onFiles? .disassemble rest
    else if name = "listing" then onFiles? .listing rest
    else none
  | _ => none

/-- The version command takes no arguments. -/
def versionCommand? (arguments : List String) : Option Command :=
  match positionals arguments with
  | some [] => some .version
  | _ => none

/-- What arguments ask for. -/
def Request.ofArguments (arguments : List String) : Request :=
  match takeOptions false arguments with
  | some (quiet, name :: rest) =>
    if name = "version" then ⟨quiet, versionCommand? rest⟩
    else if name = "raw_8086" then ⟨quiet, rawImageCommand? rest⟩
    else ⟨false, none⟩
  | _ => ⟨false, none⟩

/-! ### Running -/

/-- The files that a command can read: the bytes of a file, and the text of one. -/
structure Files where
  binary? : String → Option Image
  text? : String → Option String

/-- How a run ends. -/
inductive Result where
  /-- The arguments are not understood. -/
  | misused
  /-- The command gives an error and prints nothing. -/
  | failed (error : Error)
  /-- The command prints lines. -/
  | printed (lines : List String)
  deriving Repr

/-- How a run ends, and the messages that it leaves in the log. Only errors are logged by a quiet
run, and no message is one. -/
structure Outcome where
  result : Result
  log : List Log.Message

/-- The number that tells the caller how a run ended. -/
def Result.exitCode : Result → Nat
  | .printed _ => 0
  | .failed _ => 1
  | .misused => 2

/-- The name and the version of the program. -/
def versionText : String :=
  "disasm86 0.1.0"

/-- Decodes a binary file under the settings of a file, if one is named. The binary is looked for
first. -/
def runFiles (files : Files) (binary : String) (settings? : Option String) :
    Logged Program := do
  let some image := files.binary? binary | Logged.fail .missingFile
  match settings? with
  | none => Program.runWith none image
  | some path =>
    let some text := files.text? path | Logged.fail .missingFile
    Program.runWith (some text) image

/-- The outcome of a report on a binary file. What has been logged is kept if there is no report. -/
def report (files : Files) (lines : Program → List String) (binary : String)
    (settings? : Option String) : Outcome :=
  let ⟨messages, outcome⟩ := runFiles files binary settings?
  match outcome with
  | .ok program => ⟨.printed (lines program), messages⟩
  | .error error => ⟨.failed error, messages⟩

/-- The outcome of a command. -/
def Command.run (files : Files) : Command → Outcome
  | .version => ⟨.printed [versionText], []⟩
  | .disassemble binary settings? => report files Report.disassembly binary settings?
  | .listing binary settings? => report files Report.listing binary settings?

/-- The outcome of a request. A quiet run leaves no messages. -/
def run (files : Files) (request : Request) : Outcome :=
  match request.command? with
  | none => ⟨.misused, []⟩
  | some command =>
    let outcome := command.run files
    if request.quiet then { outcome with log := [] } else outcome

end MachineCode.CommandLine
