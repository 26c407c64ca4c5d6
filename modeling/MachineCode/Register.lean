/-!
# Registers

The eight general registers of each operand width, and the eight base register combinations of an
effective address. Both are numbered by three-bit fields of an instruction; the same number names a
byte register or a word register, depending on the operand width.

## Main definitions

* `Width` : the two operand widths.
* `Register` : a register, which is a number together with a width.
* `Base` : the base registers of an effective address.
-/

namespace MachineCode

/-- Operands are bytes or sixteen-bit words. -/
inductive Width where
  | byte
  | word
  deriving DecidableEq, Repr

namespace Width

/-- The width that a one-bit field selects: a set bit means words. -/
def ofFlag (word : Bool) : Width :=
  if word then .word else .byte

/-- The keyword that names a width in assembly text. -/
def text : Width → String
  | .byte => "byte"
  | .word => "word"

end Width

/-- A register is told apart by its width and by its number among the registers of that width. -/
structure Register where
  width : Width
  index : BitVec 3
  deriving DecidableEq, Repr

namespace Register

/-- The names of the registers of a width, in the order of their numbers. -/
def names : Width → Vector String 8
  | .byte => #v["al", "cl", "dl", "bl", "ah", "ch", "dh", "bh"]
  | .word => #v["ax", "cx", "dx", "bx", "sp", "bp", "si", "di"]

/-- The name of a register. -/
def text (register : Register) : String :=
  (names register.width).get register.index.toFin

end Register

/-- The base register combinations that an effective address can start from. -/
inductive Base where
  | bxSi
  | bxDi
  | bpSi
  | bpDi
  | si
  | di
  | bp
  | bx
  deriving DecidableEq, Repr

namespace Base

/-- The combinations in the order of the three-bit field that selects them. -/
def all : Vector Base 8 :=
  #v[bxSi, bxDi, bpSi, bpDi, si, di, bp, bx]

/-- The combination that a three-bit field selects. -/
def ofField (field : BitVec 3) : Base :=
  all.get field.toFin

/-- The three-bit field that selects a combination. -/
def field : Base → BitVec 3
  | .bxSi => 0
  | .bxDi => 1
  | .bpSi => 2
  | .bpDi => 3
  | .si => 4
  | .di => 5
  | .bp => 6
  | .bx => 7

@[simp]
theorem field_ofField (field : BitVec 3) : (ofField field).field = field := by
  revert field
  decide

@[simp]
theorem ofField_field (base : Base) : ofField base.field = base := by
  cases base <;> rfl

/-- The word registers whose sum a combination stands for. -/
def registers : Base → List Register
  | .bxSi => [⟨.word, 3⟩, ⟨.word, 6⟩]
  | .bxDi => [⟨.word, 3⟩, ⟨.word, 7⟩]
  | .bpSi => [⟨.word, 5⟩, ⟨.word, 6⟩]
  | .bpDi => [⟨.word, 5⟩, ⟨.word, 7⟩]
  | .si => [⟨.word, 6⟩]
  | .di => [⟨.word, 7⟩]
  | .bp => [⟨.word, 5⟩]
  | .bx => [⟨.word, 3⟩]

/-- A combination is written as the sum of its registers. -/
def text (base : Base) : String :=
  " + ".intercalate (base.registers.map Register.text)

end Base

end MachineCode
