import MachineCode.Program.Basic
import MachineCode.Report.Grid

/-!
# Reports on a program

A program is reported as a plain listing, which an assembler can read, or as a disassembly, which
shows addresses, bytes and failures as well.

## Main definitions

* `Report.listing` : the lines of a listing.
* `Report.disassembly` : the lines of a disassembly.
-/

namespace MachineCode.Report

/-- The lines of a listing: a directive for sixteen-bit code, an empty line, and one line for each
instruction. -/
def listing (program : Program) : List String :=
  ["bits 16", ""] ++ program.instructions.map Instruction.text

/-- The control characters that a console cell drops. -/
def isDropped (c : Char) : Bool :=
  c == '\x07' || c == '\x08' || c == '\x0b' || c == '\x0c' || c == '\r'

/-- The cell of an assembly text: the mnemonic up to the first blank, and the operands behind it, if
there are any. -/
def assemblyCell (text : String) : String :=
  let mnemonic := text.toList.takeWhile (· != ' ')
  let operands := (text.toList.dropWhile (· != ' ')).drop 1
  let parts := if operands.isEmpty then mnemonic else mnemonic ++ ' ' :: operands
  String.ofList (parts.filter fun c => !isDropped c)

/-- The table of the instructions of a program. -/
def instructionGrid (program : Program) : Grid where
  header := ["Address", "Bytes", "Instruction"]
  rows := program.instructions.map fun i =>
    [Numeral.address i.address, (program.bytesOf i).text, assemblyCell i.text]

/-- The table of the failures of a program. -/
def failureGrid (program : Program) : Grid where
  header := ["Address", "Offset", "Kind", "Details"]
  rows := program.failures.map fun f =>
    [Numeral.address f.address, Numeral.offset f.offset, f.fault.cause.kind, f.fault.message]

/-- The failures of a program under a rule, if there are any. -/
def failureLines (program : Program) : List String :=
  if program.failures.isEmpty then [] else rule "Decode failures" :: (failureGrid program).lines

/-- How much of a program has been decoded. -/
def summary (program : Program) : String :=
  Numeral.decimal program.instructions.length ++ " instructions, " ++
    Numeral.decimal program.size ++ " of " ++ Numeral.decimal program.data.size ++ " bytes decoded"

/-- The lines of a disassembly: instructions, failures and a summary. -/
def disassembly (program : Program) : List String :=
  (instructionGrid program).titledLines "Instructions" ++ failureLines program ++
    panel "Summary" (summary program)

end MachineCode.Report
