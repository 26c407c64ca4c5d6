import MachineCode.Bits
import MachineCode.Fault
import MachineCode.Register
import MachineCode.Settings.Issue

/-!
# Errors

Everything that can go wrong, as one type, with its wording in `Error.message`.
-/

namespace MachineCode

/-- The causes for which an operation gives no result. -/
inductive Error where
  /-- The bytes at a position do not decode. -/
  | decode (fault : Fault)
  /-- A value lies outside the range that its type admits. -/
  | outOfRange
  /-- No register of the width has the number. -/
  | noSuchRegister (width : Width) (number : Int)
  /-- No base register combination has the number. -/
  | noSuchBase (number : Int)
  /-- The members of the family do not share a mnemonic. -/
  | noMnemonic (operation : Operation)
  /-- Decoding is asked to start behind the end of a binary of `size` bytes. -/
  | startPastEnd (start size : Nat)
  /-- A file does not exist. -/
  | missingFile
  /-- The settings are not acceptable. -/
  | invalidSettings (issues : List Settings.Issue)
  deriving Repr

namespace Error

/-- The wording of an error. -/
def message : Error → String
  | .decode fault => fault.message
  | .outOfRange | .missingFile | .invalidSettings _ => ""
  | .noSuchRegister .byte number => Numeral.decimal number ++ " is not a valid RegisterByte"
  | .noSuchRegister .word number => Numeral.decimal number ++ " is not a valid RegisterWord"
  | .noSuchBase number => Numeral.decimal number ++ " is not a valid Address"
  | .noMnemonic operation => operation.name ++ " has no single mnemonic"
  | .startPastEnd start size =>
    "Start offset (" ++ Numeral.decimal start ++ ") is past the end of the binary (" ++
      Numeral.decimal size ++ " bytes)"

/-- A decode fault becomes one of the instruction that starts at a byte; other errors stay as they
are. -/
def startedAt (start : Nat) : Error → Error
  | .decode fault => .decode (fault.startedAt start)
  | error => error

end Error

/-- The register of a width with a number. -/
def Register.ofNumber (width : Width) (number : Int) : Except Error Register :=
  match bitsOfInt? 3 number with
  | some index => .ok ⟨width, index⟩
  | none => .error (.noSuchRegister width number)

/-- The base register combination with a number. -/
def Base.ofNumber (number : Int) : Except Error Base :=
  match bitsOfInt? 3 number with
  | some field => .ok (.ofField field)
  | none => .error (.noSuchBase number)

/-- The mnemonic of a family, if its members share one. -/
def Operation.mnemonic (operation : Operation) : Except Error String :=
  match operation.mnemonic? with
  | some mnemonic => .ok mnemonic
  | none => .error (.noMnemonic operation)

end MachineCode
