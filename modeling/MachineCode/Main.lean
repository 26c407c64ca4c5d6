import MachineCode.CommandLine

/-!
# The program

Reads the files that the arguments name, runs the command, and prints its lines. Log messages and
errors go to the error output.
-/

namespace MachineCode

/-- The bytes of a file, if it can be read. -/
def readBytes? (path : String) : IO (Option Image) := do
  try
    return some (← IO.FS.readBinFile path).data
  catch _ =>
    return none

/-- The text of a file, if it can be read. -/
def readText? (path : String) : IO (Option String) := do
  try
    return some (← IO.FS.readFile path)
  catch _ =>
    return none

/-- The files that a command names, read in advance. -/
def readFiles (command? : Option CommandLine.Command) : IO CommandLine.Files := do
  match command? with
  | none | some .version => return ⟨fun _ => none, fun _ => none⟩
  | some (.disassemble binary settings?) | some (.listing binary settings?) =>
    let image ← readBytes? binary
    let text ← match settings? with
      | some path => readText? path
      | none => pure none
    return ⟨fun _ => image, fun _ => text⟩

/-- How the program is called. -/
def usage : String :=
  "usage: disasm86 [-q] (version | raw_8086 (disassemble | listing) BINARY [SETTINGS])"

/-- The lines that describe how a run failed. -/
def errorLines : Error → List String
  | .invalidSettings issues =>
    issues.map fun issue =>
      ".".intercalate issue.path ++ ": " ++ issue.kind.message?.getD "the text is not valid JSON"
  | .missingFile => ["a file cannot be read"]
  | .outOfRange => ["value out of range"]
  | .decode fault => fault.message :: fault.notes
  | error => [error.message]

end MachineCode

open MachineCode in
/-- Runs the command that the arguments ask for. -/
def main (arguments : List String) : IO UInt32 := do
  let request := CommandLine.Request.ofArguments arguments
  let files ← readFiles request.command?
  let outcome := CommandLine.run files request
  for message in outcome.log do
    IO.eprintln message.line
  match outcome.result with
  | .printed lines => lines.forM fun line => IO.println line
  | .failed error => (errorLines error).forM fun line => IO.eprintln line
  | .misused => IO.eprintln usage
  return outcome.result.exitCode.toUInt32
