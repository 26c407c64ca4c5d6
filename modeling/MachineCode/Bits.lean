/-!
# Numbers in fields

A field of some width holds a natural number with at most as many bits. Numbers that come from
outside are put into fields only if they fit.
-/

namespace MachineCode

/-- The field of a width that holds a number, if the number fits. -/
def bitsOfInt? (width : Nat) (value : Int) : Option (BitVec width) :=
  let field := BitVec.ofInt width value
  if field.toNat = value then some field else none

theorem bitsOfInt?_toNat {width : Nat} (field : BitVec width) :
    bitsOfInt? width field.toNat = some field := by
  have h : BitVec.ofInt width field.toNat = field := by
    rw [BitVec.ofInt_natCast, BitVec.ofNat_toNat, BitVec.setWidth_eq]
  unfold bitsOfInt?
  dsimp only
  rw [h, if_pos rfl]

end MachineCode
