import MachineCode.Decoder.Field
import MachineCode.Instruction.Basic
import MachineCode.Opcode.Table

/-!
# Decoding one instruction

An instruction is an opcode followed by the fields of its family. Two families are decoded to
instructions. The group of unary operations is read to its end, so that its size can be reported,
and all others are reported at once.

## Main definitions

* `Decoder.registerMemoryOperands`, `Decoder.immediateRegisterOperands` : the fields behind the
  opcode of a move.
* `Decoder.instruction` : the instruction at a position.
-/

namespace MachineCode

/-- The destination and the source of an instruction. -/
structure Operands where
  destination : Operand
  source : Operand
  deriving DecidableEq, Repr

namespace Decoder

variable {image : Image}

/-- Reads the fields `d w mod reg r/m` and the displacement, if any. The flag `d` says that the
register field is the destination. -/
def registerMemoryOperands (settings : Settings.Decoder) : Decoder image Operands := do
  let registerIsDestination ← flag
  let width := Width.ofFlag (← flag)
  let mode ← take 2
  let register ← register width
  let location ← locationOfNumber settings mode.toNat width
  if registerIsDestination then
    return ⟨.register register, location⟩
  else
    return ⟨location, .register register⟩

/-- Reads the fields `w reg` and a literal of that width. -/
def immediateRegisterOperands : Decoder image Operands := do
  let width := Width.ofFlag (← flag)
  let register ← register width
  let immediate ← immediate width
  return ⟨.register register, .immediate immediate⟩

/-- Reads the fields `mod ext r/m` and the displacement, if any, without keeping them. -/
def groupLayout (settings : Settings.Decoder) : Decoder image Unit := do
  let mode ← take 2
  let _ ← take 3
  let _ ← locationOfNumber settings mode.toNat .word

/-- Ends the instruction that started at `start` with a cause for which it is not decoded. -/
def refuse {α : Type} (start : BitReader image) (cause : Fault.Cause) : Decoder image α :=
  throw (.decode { offset := start.byteIndex, cause })

/-- Makes an instruction of operands that have been read since `start`. -/
def assemble (start : BitReader image) (address : Nat) (operation : Operation)
    (operands : Operands) :
    Decoder image Instruction := do
  let size ← bytesSince start
  require (Instruction.ofFields? address size operation operands.destination operands.source)

/-- Reads the fields behind an opcode, for an instruction that started at `start`. -/
def instructionOf (settings : Settings.Decoder) (address : Nat) (start : BitReader image)
    (opcode : Opcode.Classification) : Decoder image Instruction :=
  match opcode.operation with
  | .moveRegisterMemory => do
    assemble start address opcode.operation (← registerMemoryOperands settings)
  | .moveImmediateRegister => do
    assemble start address opcode.operation (← immediateRegisterOperands)
  | .registerMemoryGroup => do
    groupLayout settings
    let size ← bytesSince start
    refuse start (.unimplemented opcode.operation (some size))
  | .moveImmediateMemory | .moveAccumulator =>
    refuse start (.unimplemented opcode.operation none)
  | .unrecognized =>
    refuse start (.unknownOpcode opcode.bits.toNat opcode.width)

/-- Reads the instruction at a position, which has the given address. A fault names the byte at
which the instruction starts. -/
def instruction (settings : Settings.Decoder) (address : Nat) : Decoder image Instruction :=
  instructionStart do
    let start ← get
    let opcode ← Opcode.classify Opcode.standard
    instructionOf settings address start opcode

/-- Reads the instruction at a position, which has the given address. An address below zero is
refused only when the instruction has been decoded. -/
def instructionAt (settings : Settings.Decoder) (address : Int) : Decoder image Instruction := do
  let instruction ← instruction settings address.toNat
  if 0 ≤ address then
    return instruction
  else
    throw .outOfRange

end Decoder

end MachineCode
