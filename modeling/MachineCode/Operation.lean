/-!
# Operations

The instruction families that an opcode can belong to. Only two of them are decoded; the others are
recognized so that they can be reported by name.
-/

namespace MachineCode

/-- The instruction family of an opcode. -/
inductive Operation where
  /-- `100010dw`: a move between a register and a register or memory. -/
  | moveRegisterMemory
  /-- `1011wreg`: a move of a literal to a register. -/
  | moveImmediateRegister
  /-- `1100011w`: a move of a literal to a register or memory, not decoded. -/
  | moveImmediateMemory
  /-- `101000dw`: a move between memory and the accumulator, not decoded. -/
  | moveAccumulator
  /-- `11111111`: the group of increments, jumps, calls and pushes on a register or memory, not
  decoded. -/
  | registerMemoryGroup
  /-- No family that is known. -/
  | unrecognized
  deriving DecidableEq, Repr

namespace Operation

/-- All families, in the order in which they are declared. -/
def all : List Operation :=
  [moveRegisterMemory, moveImmediateRegister, moveImmediateMemory, moveAccumulator,
    registerMemoryGroup, unrecognized]

/-- The name under which a family is reported. -/
def name : Operation → String
  | .moveRegisterMemory => "MOV_REGISTER_MEMORY"
  | .moveImmediateRegister => "MOV_IMMEDIATE_REGISTER"
  | .moveImmediateMemory => "MOV_IMMEDIATE_MEMORY"
  | .moveAccumulator => "MOV_ACCUMULATOR"
  | .registerMemoryGroup => "REGISTER_MEMORY_GROUP"
  | .unrecognized => "UNRECOGNIZED"

/-- The family with a given name. -/
def ofName? (name : String) : Option Operation :=
  all.find? (·.name == name)

/-- The mnemonic that all members of a family share, if there is one. -/
def mnemonic? : Operation → Option String
  | .moveRegisterMemory | .moveImmediateRegister => some "mov"
  | .moveImmediateMemory | .moveAccumulator => some "mov"
  | .registerMemoryGroup | .unrecognized => none

/-- The families whose members are decoded to instructions. -/
def isDecodable : Operation → Bool
  | .moveRegisterMemory | .moveImmediateRegister => true
  | _ => false

theorem isSome_mnemonic? {operation : Operation} (h : operation.isDecodable = true) :
    operation.mnemonic?.isSome = true := by
  cases operation <;> simp_all [isDecodable, mnemonic?]

end Operation

end MachineCode
