import MachineCode.Bits
import MachineCode.Numeral
import MachineCode.Register

/-!
# Operands

Immediates, effective addresses and the operands of an instruction, with their assembly text.

An assembler picks the shortest displacement that holds a value, and none for the value zero unless
the base is `bp`, which has no form without displacement. The text of an address therefore names the
size of its displacement exactly where this choice would differ from the displacement that the
address holds; see `EffectiveAddress.sizeWord?`.

## Main definitions

* `Immediate` : a literal of eight or sixteen bits.
* `EffectiveAddress` : a memory operand.
* `Operand` : a register, a literal or a memory operand.
-/

namespace MachineCode

/-- A literal of one of the two operand widths. -/
inductive Immediate where
  | byte (value : BitVec 8)
  | word (value : BitVec 16)
  deriving DecidableEq, Repr

namespace Immediate

/-- The literal of a width with a value, if the value fits. -/
def ofInt? : Width → Int → Option Immediate
  | .byte, value => (bitsOfInt? 8 value).map .byte
  | .word, value => (bitsOfInt? 16 value).map .word

/-- The width of a literal. -/
def width : Immediate → Width
  | .byte _ => .byte
  | .word _ => .word

/-- The bits of a literal read as an unsigned number. -/
def value : Immediate → Nat
  | .byte v => v.toNat
  | .word v => v.toNat

/-- The bits of a literal read in two's complement. -/
def signed : Immediate → Int
  | .byte v => v.toInt
  | .word v => v.toInt

/-- A literal is written as an unsigned decimal number. -/
def text (immediate : Immediate) : String :=
  Numeral.decimal immediate.value

end Immediate

/-- A memory operand: a base alone, a base and a displacement, or a displacement alone. -/
inductive EffectiveAddress where
  | bare (base : Base)
  | offset (base : Base) (displacement : Immediate)
  | direct (displacement : Immediate)
  deriving DecidableEq, Repr

namespace EffectiveAddress

/-- The size that has to be named for a displacement on a base: that of a zero byte, unless the base
is `bp`, and that of a word whose value a signed byte could hold. -/
def sizeWord? (base : Base) : Immediate → Option Width
  | .byte v => if v.toInt = 0 ∧ base ≠ .bp then some .byte else none
  | .word v => if -0x80 ≤ v.toInt ∧ v.toInt < 0x80 then some .word else none

/-- The size keyword with the space behind it, or nothing. -/
def sizeText : Option Width → String
  | none => ""
  | some width => width.text ++ " "

/-- A signed number as a term added to, or taken from, what stands in front of it. -/
def termText (n : Int) : String :=
  (if n < 0 then " - " else " + ") ++ Numeral.decimal n.natAbs

/-- The text inside the brackets of a base with a displacement, which is added as a signed number. A
zero displacement whose size goes without saying is left out. -/
def offsetText (base : Base) (displacement : Immediate) : String :=
  let size := sizeWord? base displacement
  if size = none ∧ displacement.signed = 0 then
    base.text
  else
    sizeText size ++ base.text ++ termText displacement.signed

/-- A memory operand is written in brackets. A displacement without a base is an unsigned
address. -/
def text : EffectiveAddress → String
  | .bare base => "[" ++ base.text ++ "]"
  | .offset base displacement => "[" ++ offsetText base displacement ++ "]"
  | .direct displacement => "[" ++ displacement.text ++ "]"

end EffectiveAddress

/-- What an instruction reads or writes. -/
inductive Operand where
  | register (register : Register)
  | immediate (immediate : Immediate)
  | memory (address : EffectiveAddress)
  deriving DecidableEq, Repr

/-- The assembly text of an operand. -/
def Operand.text : Operand → String
  | .register r => r.text
  | .immediate i => i.text
  | .memory a => a.text

end MachineCode
