import MachineCode.Failure
import MachineCode.Image
import MachineCode.Instruction.Basic

/-!
# Programs

A program is an image that is loaded at an address, with the instructions that were decoded from it
and the failures met on the way. Instructions come in the order of their addresses, do not overlap
and lie within the image; gaps between them are the places of failures. Only neighbours are
compared, which is enough because the order is transitive.

## Main definitions

* `Adjacent` : a relation between neighbours of a list.
* `Program` : a decoded image.
* `Program.bytesOf` : the bytes of an instruction.
-/

namespace MachineCode

/-- Every two neighbours of a list are related. -/
def Adjacent {α : Type} (r : α → α → Prop) : List α → Prop
  | [] => True
  | [_] => True
  | a :: b :: rest => r a b ∧ Adjacent r (b :: rest)

/-- Whether neighbours are related is decided pair by pair. -/
instance Adjacent.decidable {α : Type} (r : α → α → Prop) [DecidableRel r] :
    (items : List α) → Decidable (Adjacent r items)
  | [] => isTrue trivial
  | [_] => isTrue trivial
  | a :: b :: rest =>
    have := decidable r (b :: rest)
    inferInstanceAs (Decidable (r a b ∧ Adjacent r (b :: rest)))

/-- A decoded image, loaded at an address. -/
structure Program where
  origin : Nat
  data : Image
  instructions : List Instruction
  failures : List Failure
  /-- Instructions are in order and do not overlap. -/
  instructions_adjacent : Adjacent (fun i j => i.endAddress ≤ j.address) instructions
  /-- Instructions lie within the image. -/
  instructions_within : ∀ i ∈ instructions, origin ≤ i.address ∧ i.endAddress ≤ origin + data.size
  /-- Failures are in order. -/
  failures_adjacent : Adjacent (fun f g => f.address ≤ g.address) failures
  /-- Failures lie within the image or at its end. -/
  failures_within : ∀ f ∈ failures, origin ≤ f.address ∧ f.address ≤ origin + data.size
  deriving DecidableEq

namespace Program

/-- The program with the given parts, if its origin is not negative and its parts are in order and
within the image. -/
def ofParts? (origin : Int) (data : Image) (instructions : List Instruction)
    (failures : List Failure) :
    Option Program :=
  if h : (Adjacent (fun i j => i.endAddress ≤ j.address) instructions ∧
      ∀ i ∈ instructions, origin.toNat ≤ i.address ∧ i.endAddress ≤ origin.toNat + data.size) ∧
      (Adjacent (fun f g => f.address ≤ g.address) failures ∧
      ∀ f ∈ failures, origin.toNat ≤ f.address ∧ f.address ≤ origin.toNat + data.size) then
    if 0 ≤ origin then
      some ⟨origin.toNat, data, instructions, failures, h.1.1, h.1.2, h.2.1, h.2.2⟩
    else
      none
  else
    none

/-- The address right behind the image. -/
def endAddress (program : Program) : Nat :=
  program.origin + program.data.size

/-- The number of bytes that decoded instructions cover. -/
def size (program : Program) : Nat :=
  program.instructions.foldr (fun i total => i.size + total) 0

/-- The addresses at which instructions start, in ascending order. -/
def addresses (program : Program) : List Nat :=
  program.instructions.map Instruction.address

/-- The instruction at an address, if one starts there. -/
def at? (program : Program) (address : Int) : Option Instruction :=
  program.instructions.find? fun i => (i.address : Int) == address

/-- The bytes of the image that an instruction occupies by its address and size. The instruction
need not be one of the program: its bytes are then those of a slice whose ends may be counted from
the end of the image. -/
def bytesOf (program : Program) (instruction : Instruction) : Image :=
  let offset : Int := instruction.address - program.origin
  program.data.slice offset (offset + instruction.size)

end Program

end MachineCode
