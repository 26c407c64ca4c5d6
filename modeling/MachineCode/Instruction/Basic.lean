import MachineCode.Operand
import MachineCode.Operation

/-!
# Instructions

A decoded instruction knows the address of its first byte, its size, its family and its two
operands. Only decodable families occur in instructions, and an instruction is one to six bytes
long.
-/

namespace MachineCode

/-- A decoded instruction with a destination and a source. -/
structure Instruction where
  address : Nat
  size : Nat
  operation : Operation
  destination : Operand
  source : Operand
  one_le_size : 1 ≤ size
  size_le_six : size ≤ 6
  isDecodable : operation.isDecodable = true
  deriving DecidableEq, Repr

namespace Instruction

/-- The instruction with the given parts, if its address is not negative, its size is one to six
bytes and its family is decodable. -/
def ofFields? (address size : Int) (operation : Operation) (destination source : Operand) :
    Option Instruction :=
  if h : 0 ≤ address ∧ (1 ≤ size ∧ size ≤ 6) ∧ operation.isDecodable = true then
    some {
      address := address.toNat
      size := size.toNat
      operation, destination, source
      one_le_size := by omega
      size_le_six := by omega
      isDecodable := h.2.2 }
  else
    none

/-- The address right behind an instruction. -/
def endAddress (instruction : Instruction) : Nat :=
  instruction.address + instruction.size

/-- The mnemonic of an instruction is that of its family. -/
def mnemonic (instruction : Instruction) : String :=
  instruction.operation.mnemonic?.get (Operation.isSome_mnemonic? instruction.isDecodable)

/-- The assembly text of an instruction: mnemonic, destination, source. -/
def text (instruction : Instruction) : String :=
  instruction.mnemonic ++ " " ++ instruction.destination.text ++ ", " ++ instruction.source.text

end Instruction

end MachineCode
