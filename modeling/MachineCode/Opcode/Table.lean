import MachineCode.Decoder.Basic

/-!
# Opcode tables

The family of an opcode is looked up in a table. Every row names the leading four bits of an opcode
and, for some families, further bits behind them, which either have to take one value or may take
any. The first row that matches decides; a row whose further bits differ is passed over, and the
next row starts again right behind the leading four.

## Main definitions

* `Opcode.Row` : a row of an opcode table.
* `Opcode.standard` : the table of the known families.
* `Opcode.classify` : the family of the opcode at a position.
-/

namespace MachineCode.Opcode

/-- The bits of an opcode behind its leading four. -/
inductive Extension where
  /-- The opcode has no further bits. -/
  | absent
  /-- Further bits belong to the opcode but may take any value. -/
  | ignored (width : Nat) (width_pos : 0 < width)
  /-- Further bits have to take one value. -/
  | exactly (width : Nat) (width_pos : 0 < width) (value : BitVec width)
  deriving DecidableEq, Repr

/-- The extension of `width` bits that have to form a value, or may form any value where none is
given. The width may not be negative, and a value has to fit into it. -/
def Extension.ofFields? (width : Int) (value : Option Int) : Option Extension :=
  if h : 0 < width then
    match value with
    | none => some (.ignored width.toNat (by omega))
    | some value => (bitsOfInt? width.toNat value).map (.exactly width.toNat (by omega))
  else if width = 0 ∧ value.isNone = true then
    some .absent
  else
    none

/-- The number of bits in an extension. -/
def Extension.width : Extension → Nat
  | .absent => 0
  | .ignored width _ | .exactly width _ _ => width

/-- A row of an opcode table assigns a family to the opcodes with given leading bits. -/
structure Row where
  nibble : BitVec 4
  extension : Extension
  operation : Operation
  isRecognized : operation ≠ .unrecognized
  deriving DecidableEq, Repr

/-- The row with the given parts, if the leading bits fit into four bits, the extension is
admissible and the family is a known one. -/
def Row.ofFields? (nibble width : Int) (value : Option Int) (operation : Operation) : Option Row :=
  if h : operation ≠ .unrecognized then do
    let nibble ← bitsOfInt? 4 nibble
    let extension ← Extension.ofFields? width value
    return ⟨nibble, extension, operation, h⟩
  else
    none

/-- The table of the known families. The two bits behind `1000` also tell other families from the
moves, but are not looked at. -/
def standard : List Row :=
  [⟨0b1000, .ignored 2 (by decide), .moveRegisterMemory, by decide⟩,
    ⟨0b1011, .absent, .moveImmediateRegister, by decide⟩,
    ⟨0b1100, .absent, .moveImmediateMemory, by decide⟩,
    ⟨0b1010, .absent, .moveAccumulator, by decide⟩,
    ⟨0b1111, .exactly 4 (by decide) 0b1111, .registerMemoryGroup, by decide⟩]

/-- The family of an opcode, together with the opcode bits that decided it. -/
structure Classification where
  operation : Operation
  width : Nat
  bits : BitVec width
  deriving DecidableEq, Repr

variable {image : Image}

/-- The family of an opcode whose leading bits have been read, by the first of the rows that
matches. -/
def classifyNibble (nibble : BitVec 4) : List Row → Decoder image Classification
  | [] => return ⟨.unrecognized, 4, nibble⟩
  | row :: rows =>
    if row.nibble = nibble then
      match row.extension with
      | .absent => return ⟨row.operation, 4, nibble⟩
      | .ignored width _ => do
        let bits ← Decoder.take width
        return ⟨row.operation, 4 + width, nibble ++ bits⟩
      | .exactly width _ value => do
        let behindNibble ← get
        let bits ← Decoder.take width
        if bits = value then
          return ⟨row.operation, 4 + width, nibble ++ bits⟩
        else
          set behindNibble
          classifyNibble nibble rows
    else
      classifyNibble nibble rows

/-- Reads an opcode and looks up its family. The leading four bits come first, because they alone
have the same place and width in every family. -/
def classify (table : List Row) : Decoder image Classification := do
  let nibble ← Decoder.take 4
  classifyNibble nibble table

end MachineCode.Opcode
