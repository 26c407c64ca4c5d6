import MachineCode.Fault

/-!
# Failures

A failure records a fault that was met while a program was decoded, together with the place at which
it was met.
-/

namespace MachineCode

/-- A fault met while a program was decoded. The address counts from where the program is loaded,
the offset from the start of the binary. -/
structure Failure where
  address : Nat
  offset : Nat
  fault : Fault
  deriving DecidableEq, Repr

/-- The failure with the given parts, if neither its address nor its offset is negative. -/
def Failure.ofFields? (address offset : Int) (fault : Fault) : Option Failure :=
  if 0 ≤ address ∧ 0 ≤ offset then some ⟨address.toNat, offset.toNat, fault⟩ else none

end MachineCode
