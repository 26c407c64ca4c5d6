import MachineCode.Proofs.BitString.Outcome

/-!
# Strings of bytes

From the first bit of a byte on, an instruction is a string of bytes. This file decodes it as such,
without a single bit field: the parts of the opcode byte and of the mode byte are cut out by shifts
and masks, and literals are put together from one or two bytes. What is missing is always a whole
byte, and it is blamed on the first field that lies in it.

## Main definitions

* `ByteString.literal`, `ByteString.location` : what the bytes behind the opcode and the mode say.
* `ByteString.outcome` : what a string of bytes decodes to.
-/

namespace MachineCode

namespace ByteString

/-- The literal at the front of some bytes, with the number of its bytes. The low byte of a word
comes first. -/
def literal : Width → List UInt8 → Option (Immediate × Nat)
  | .byte, low :: _ => some (.byte (.ofNat 8 low.toNat), 1)
  | .word, low :: high :: _ => some (.word (.ofNat 16 (low.toNat + 256 * high.toNat)), 2)
  | _, _ => none

/-- The memory operand that a mode byte selects, with the number of the displacement bytes behind
it. -/
def address (settings : Settings.Decoder) (mode : UInt8) (rest : List UInt8) :
    Option (EffectiveAddress × Nat) :=
  let base : Base := .ofField (.ofNat 3 (mode &&& 7).toNat)
  if mode >>> 6 = 0 then
    if settings.directAddress = true ∧ mode &&& 7 = 6 then
      (literal .word rest).map fun p => (.direct p.1, p.2)
    else
      some (.bare base, 0)
  else if mode >>> 6 = 1 then
    (literal .byte rest).map fun p => (.offset base p.1, p.2)
  else
    (literal .word rest).map fun p => (.offset base p.1, p.2)

/-- The operand that a mode byte selects, with the number of the displacement bytes behind it. -/
def location (settings : Settings.Decoder) (width : Width) (mode : UInt8) (rest : List UInt8) :
    Option (Operand × Nat) :=
  if mode >>> 6 = 3 then
    some (.register ⟨width, .ofNat 3 (mode &&& 7).toNat⟩, 0)
  else
    (address settings mode rest).map fun p => (.memory p.1, p.2)

/-- The width that the last bit of an opcode byte selects. -/
def width (opcode : UInt8) : Width :=
  .ofFlag (opcode &&& 1 = 1)

/-- The register that the middle field of a mode byte names, and the operand that the byte selects,
in the order that the last bit but one of the opcode byte asks for. -/
def operands (opcode mode : UInt8) (operand : Operand) : Operands :=
  let register : Operand := .register ⟨width opcode, .ofNat 3 ((mode >>> 3) &&& 7).toNat⟩
  if opcode &&& 2 = 2 then ⟨register, operand⟩ else ⟨operand, register⟩

/-- The move `1000xxdw mod reg r/m` and its displacement, behind the opcode byte. -/
def registerMemory (settings : Settings.Decoder) (opcode : UInt8) : List UInt8 → Outcome
  | [] => .error (.truncated 2 0)
  | mode :: rest =>
    match location settings (width opcode) mode rest with
    | none => .error (.truncated 8 0)
    | some (operand, count) => .ok ⟨.moveRegisterMemory, operands opcode mode operand, 2 + count⟩

/-- The width that the fourth bit from the end of an opcode byte selects. -/
def literalWidth (opcode : UInt8) : Width :=
  .ofFlag (opcode &&& 8 = 8)

/-- The register that the end of an opcode byte names, and a literal for it. -/
def literalOperands (opcode : UInt8) (immediate : Immediate) : Operands :=
  ⟨.register ⟨literalWidth opcode, .ofNat 3 (opcode &&& 7).toNat⟩, .immediate immediate⟩

/-- The move `1011wreg` and its literal, behind the opcode byte. -/
def immediateRegister (opcode : UInt8) (rest : List UInt8) : Outcome :=
  match literal (literalWidth opcode) rest with
  | none => .error (.truncated 8 0)
  | some (immediate, count) =>
    .ok ⟨.moveImmediateRegister, literalOperands opcode immediate, 1 + count⟩

/-- A member of the group `11111111 mod ext r/m`, of which only the size is reported, behind the
opcode byte. -/
def group (settings : Settings.Decoder) : List UInt8 → Outcome
  | [] => .error (.truncated 2 0)
  | mode :: rest =>
    match location settings .word mode rest with
    | none => .error (.truncated 8 0)
    | some (_, count) => .error (.unimplemented .registerMemoryGroup (some (2 + count : Nat)))

/-- What a string of bytes decodes to. -/
def outcome (settings : Settings.Decoder) : List UInt8 → Outcome
  | [] => .error (.truncated 4 0)
  | opcode :: rest =>
    if opcode >>> 4 = 8 then registerMemory settings opcode rest
    else if opcode >>> 4 = 11 then immediateRegister opcode rest
    else if opcode = 0xFF then group settings rest
    else if opcode >>> 4 = 12 then .error (.unimplemented .moveImmediateMemory none)
    else if opcode >>> 4 = 10 then .error (.unimplemented .moveAccumulator none)
    else .error (.unknownOpcode (opcode >>> 4).toNat 4)

theorem le_of_literal {width : Width} {bytes : List UInt8} {p : Immediate × Nat}
    (h : literal width bytes = some p) : p.2 ≤ bytes.length := by
  simp only [literal] at h
  split at h <;> cases h <;> simp

/-- What belongs to the operand of a mode byte lies within the bytes behind it. -/
theorem le_of_location {settings : Settings.Decoder} {width : Width} {m : UInt8}
    {rest : List UInt8} {p : Operand × Nat}
    (h : location settings width m rest = some p) : p.2 ≤ rest.length := by
  have hliteral : ∀ {α : Type} (w : Width) (f : Immediate → α) (q : α × Nat),
      (literal w rest).map (fun p => (f p.1, p.2)) = some q → q.2 ≤ rest.length := by
    intro α w f q hq
    obtain ⟨p, hp, rfl⟩ := Option.map_eq_some_iff.1 hq
    exact le_of_literal hp
  rw [location] at h
  split at h
  · cases h
    exact Nat.zero_le _
  · obtain ⟨q, hq, rfl⟩ := Option.map_eq_some_iff.1 h
    change q.2 ≤ rest.length
    unfold address at hq
    dsimp only at hq
    split at hq
    · split at hq
      · exact hliteral _ _ _ hq
      · cases hq
        exact Nat.zero_le _
    · split at hq
      · exact hliteral _ _ _ hq
      · exact hliteral _ _ _ hq

end ByteString

end MachineCode
