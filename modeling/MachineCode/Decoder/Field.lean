import MachineCode.Decoder.Basic
import MachineCode.Operand
import MachineCode.Settings.Basic

/-!
# Field decoders

The fields of which instructions are made: register numbers, base register combinations, literals,
and the memory or register operand that a two-bit mode selects.

## Main definitions

* `Mode` : what a mode field selects.
* `Decoder.register`, `Decoder.base`, `Decoder.immediate` : the elementary fields.
* `Decoder.effectiveAddress`, `Decoder.location` : the operand that a mode selects.
-/

namespace MachineCode

/-- The displacement that follows the base of a memory operand. -/
inductive DisplacementMode where
  | absent
  | byte
  | word
  deriving DecidableEq, Repr

/-- A mode selects a memory operand with one of the displacements, or a register. -/
inductive Mode where
  | memory (displacement : DisplacementMode)
  | register
  deriving DecidableEq, Repr

namespace DisplacementMode

/-- The displacement that a mode number below three selects. -/
def ofNumber? (number : Int) : Option DisplacementMode :=
  if number = 0 then some .absent
  else if number = 1 then some .byte
  else if number = 2 then some .word
  else none

end DisplacementMode

namespace Mode

/-- The mode that a number selects: a register for three, a memory operand below. -/
def ofNumber? (number : Int) : Option Mode :=
  if number = 3 then some .register else (DisplacementMode.ofNumber? number).map .memory

/-- The mode that a two-bit field selects. -/
def ofField (field : BitVec 2) : Mode :=
  if field = 0 then .memory .absent
  else if field = 1 then .memory .byte
  else if field = 2 then .memory .word
  else .register

theorem ofNumber?_toNat (field : BitVec 2) : ofNumber? field.toNat = some (ofField field) := by
  revert field
  decide

end Mode

namespace Decoder

variable {image : Image}

/-- Reads the number of a register of a known width. -/
def register (width : Width) : Decoder image Register := do
  let number ← take 3
  Register.ofNumber width number.toNat

/-- Reads the number of a base register combination. -/
def base : Decoder image Base := do
  let number ← take 3
  Base.ofNumber number.toNat

/-- Reads a literal. The low byte of a word comes first. -/
def immediate (width : Width) : Decoder image Immediate := do
  let low ← take 8
  match width with
  | .byte => require (Immediate.ofInt? .byte low.toNat)
  | .word => do
    let high ← take 8
    require (Immediate.ofInt? .word (low.toNat + high.toNat <<< 8))

/-- Reads a memory operand with the displacement that the mode selects. There is no `bp` without a
displacement: where the settings say so, this place encodes an address of sixteen bits without a
base. -/
def effectiveAddress (settings : Settings.Decoder) (displacement : DisplacementMode) :
    Decoder image EffectiveAddress := do
  let base ← base
  match displacement with
  | .absent =>
    if settings.directAddress = true ∧ base = .bp then
      let displacement ← immediate .word
      require (if displacement.width = .word then some (.direct displacement) else none)
    else
      return .bare base
  | .byte => return .offset base (← immediate .byte)
  | .word => return .offset base (← immediate .word)

/-- Reads the operand that a mode selects. -/
def location (settings : Settings.Decoder) (mode : Mode) (width : Width) : Decoder image Operand :=
  match mode with
  | .register => return .register (← register width)
  | .memory displacement => return .memory (← effectiveAddress settings displacement)

/-- Reads a memory operand with the displacement that a mode number selects. The base is read before
the number is looked at. -/
def effectiveAddressOfNumber (settings : Settings.Decoder) (number : Int) :
    Decoder image EffectiveAddress :=
  match DisplacementMode.ofNumber? number with
  | some displacement => effectiveAddress settings displacement
  | none => do
    let _ ← base
    throw .outOfRange

/-- Reads the operand that a mode number selects. The number is looked at first. -/
def locationOfNumber (settings : Settings.Decoder) (number : Int) (width : Width) :
    Decoder image Operand :=
  match Mode.ofNumber? number with
  | some mode => location settings mode width
  | none => throw .outOfRange

end Decoder

end MachineCode
