import MachineCode.Error
import MachineCode.Failure
import MachineCode.Instruction.Basic

/-!
# Agreement

When two parts of a listing count as the same. Registers and base register combinations are compared
by number alone, so that a register agrees with the register of the same number and the other width.
All other parts agree when they are of the same kind and their own parts agree.

## Main definitions

* `Operand.agrees`, `Instruction.agrees` : agreement of operands and of instructions.
* `Term.agrees` : agreement of any two parts.
-/

namespace MachineCode

/-- Registers agree by number; other operands agree when they are equal. -/
def Operand.agrees : Operand → Operand → Bool
  | .register r, .register s => r.index == s.index
  | .immediate i, .immediate j => i == j
  | .memory a, .memory b => a == b
  | _, _ => false

/-- Instructions agree when their addresses, sizes and families are equal and their operands
agree. -/
def Instruction.agrees (i j : Instruction) : Bool :=
  i.address == j.address && i.size == j.size && i.operation == j.operation &&
    i.destination.agrees j.destination && i.source.agrees j.source

/-- A part of a listing. -/
inductive Term where
  | operand (operand : Operand)
  | base (base : Base)
  | instruction (instruction : Instruction)
  | fault (fault : Fault)
  | failure (failure : Failure)
  deriving DecidableEq, Repr

/-- The number by which a part is compared, if it is a register or a base register combination. -/
def Term.number? : Term → Option (BitVec 3)
  | .operand (.register r) => some r.index
  | .base b => some b.field
  | _ => none

/-- Numbered parts agree by number, instructions and operands as above. A fault is an occurrence and
agrees with nothing else, and so does the failure that records one. -/
def Term.agrees (a b : Term) : Bool :=
  match a.number?, b.number? with
  | some m, some n => m == n
  | _, _ =>
    match a, b with
    | .operand x, .operand y => x.agrees y
    | .instruction i, .instruction j => i.agrees j
    | _, _ => false

end MachineCode
