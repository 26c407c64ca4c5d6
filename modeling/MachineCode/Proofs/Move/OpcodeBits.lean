import MachineCode.Proofs.Move.Agreement

/-!
# The opcode bits of a move between registers and memory

Behind the leading bits `1000`, the first byte of a move between registers and memory has four more
bits: two that belong to the opcode but are not looked at, the direction and the width. Each of them
acts on its own field. This is a statement about two images that differ in one bit, and the bit may
lie anywhere in a byte, because a move may start at any bit. The fields behind the first eight bits
are read alike in both images, as nothing but the name of a register depends on the width, and
nothing on the direction.

## Main definitions

* `Image.flip`, `BitReader.flip` : the image with one bit changed, and the same place in it.
* `Scan.modeOperands` : the operands behind the first eight bits.
* `Instruction.exchange` : the same instruction with its operands exchanged.

## Main results

* `Image.bits_flip` : one bit of the string of bits is changed.
* `Scan.instruction_registerMemory` : what each of the first eight bits contributes.
* `Decoder.resultAt_flip` : what becomes of a decode step when one of the four bits is changed.
-/

namespace MachineCode

/-! ### Changing a bit -/

namespace Image

/-- The image with one bit changed. The bits are counted in reading order. -/
def flip (image : Image) (place : Nat) : Image :=
  image.modify (place / 8) (· ^^^ .ofNat (2 ^ (7 - place % 8)))

@[simp]
theorem size_flip (image : Image) (place : Nat) : (image.flip place).size = image.size :=
  Array.size_modify

/-- The bit with the weight `2 ^ (7 - offset)` is the one at the offset. -/
theorem byteBits_xor (b : UInt8) {offset : Nat} (h : offset < 8) :
    byteBits (b ^^^ .ofNat (2 ^ (7 - offset))) = (byteBits b).modify offset not := by
  have hpow : 2 ^ (7 - offset) < 2 ^ 8 := Nat.pow_lt_pow_right (by decide) (by omega)
  have hmask : (UInt8.ofNat (2 ^ (7 - offset))).toNat = 2 ^ (7 - offset) := by
    rw [UInt8.toNat_ofNat', Nat.mod_eq_of_lt hpow]
  refine List.ext_getElem (by simp) fun i hi _ => ?_
  rw [length_byteBits] at hi
  rw [List.getElem_modify]
  simp only [byteBits, List.getElem_map, List.getElem_range, UInt8.toNat_xor, hmask,
    Nat.testBit_xor, Nat.testBit_two_pow]
  by_cases hoffset : offset = i
  · simp [hoffset]
  · simp [hoffset, show ¬ 7 - offset = 7 - i by omega]

theorem modify_length_add_append {α : Type} (front back : List α) (place : Nat) (f : α → α) :
    (front ++ back).modify (front.length + place) f = front ++ back.modify place f := by
  rw [List.modify_eq_take_drop, List.modify_eq_take_drop, List.take_length_add_append,
    List.drop_length_add_append, List.append_assoc]

theorem modify_append_of_lt {α : Type} {front : List α} (back : List α) {place : Nat} (f : α → α)
    (h : place < front.length) :
    (front ++ back).modify place f = front.modify place f ++ back := by
  obtain ⟨before, a, after, rfl, rfl, hmodify⟩ := List.exists_of_modify f h
  rw [hmodify, List.append_assoc, List.append_assoc]
  exact modify_length_add_append before (a :: (after ++ back)) 0 f

/-- One bit of the image is changed. -/
theorem bits_flip (image : Image) (place : Nat) :
    (image.flip place).bits = image.bits.modify place not := by
  have hlt : place % 8 < 8 := Nat.mod_lt _ (by decide)
  rw [bits, flip, Array.toList_modify]
  by_cases h : place / 8 < image.toList.length
  · -- the changed byte parts the bytes, and its bits part the string of bits at the same place
    obtain ⟨front, b, back, hlist, hfront, hmodify⟩ :=
      List.exists_of_modify (· ^^^ UInt8.ofNat (2 ^ (7 - place % 8))) h
    have hplace : place = (front.flatMap byteBits).length + place % 8 := by
      rw [length_flatMap_byteBits, hfront, Nat.div_add_mod]
    rw [hmodify, bits, hlist, List.flatMap_append, List.flatMap_append, List.flatMap_cons,
      List.flatMap_cons, byteBits_xor b hlt]
    conv_rhs => rw [hplace]
    rw [modify_length_add_append, modify_append_of_lt _ _ (by rw [length_byteBits]; exact hlt)]
  · have hbits : image.bits.length ≤ place := by
      rw [length_bits, bitSize]
      rw [Array.length_toList] at h
      omega
    rw [List.modify_eq_self (by omega), List.modify_eq_self hbits, bits]

end Image

namespace BitReader

variable {image : Image}

/-- The same place in the image whose bit `offset` bits further on is changed. -/
def flip (reader : BitReader image) (offset : Nat) :
    BitReader (image.flip (reader.position + offset)) where
  position := reader.position
  position_le := by
    rw [Image.bitSize, Image.size_flip]
    exact reader.position_le

/-- One of the bits that are left is changed. -/
theorem bits_flip (reader : BitReader image) (offset : Nat) :
    (reader.flip offset).bits = reader.bits.modify offset not := by
  rw [bits, Image.bits_flip, flip, List.drop_modify_of_ge _ _ _ _ (Nat.le_add_right _ _),
    Nat.add_sub_cancel_left, bits]

end BitReader

/-! ### Operands -/

namespace Operands

/-- The operands in the opposite order. -/
def exchange (operands : Operands) : Operands :=
  ⟨operands.source, operands.destination⟩

/-- The operands with registers of the other width. -/
def otherWidth (operands : Operands) : Operands :=
  ⟨operands.destination.otherWidth, operands.source.otherWidth⟩

/-- The operands in the order that a direction asks for. -/
def inDirection (operands : Operands) (registerIsDestination : Bool) : Operands :=
  if registerIsDestination then operands else operands.exchange

end Operands

theorem Width.ofFlag_not (w : Bool) : ofFlag (!w) = (ofFlag w).other := by
  cases w <;> rfl

/-- A move with other operands. -/
def Move.mapOperands (f : Operands → Operands) (move : Move) : Move :=
  { move with operands := f move.operands }

/-- A finding with other operands. -/
def Finding.mapOperands (f : Operands → Operands) : Finding → Finding
  | .move operation operands => .move operation (f operands)
  | finding => finding

namespace Instruction

/-- An instruction with other operands. -/
def mapOperands (f : Operands → Operands) (i : Instruction) : Instruction :=
  let operands := f ⟨i.destination, i.source⟩
  { i with
    destination := operands.destination
    source := operands.source }

/-- The same instruction with its operands exchanged. -/
def exchange (i : Instruction) : Instruction :=
  { i with
    destination := i.source
    source := i.destination }

end Instruction

/-! ### The first eight bits -/

namespace Scan

variable {settings : Settings.Decoder}

theorem take_append (front rest : List Bool) :
    take front.length (front ++ rest) = .ok (.ofNat _ (Image.bitsValue front), rest) := by
  rw [take, dif_pos (by simp), List.take_left, List.drop_left]

theorem flag_cons (bit : Bool) (rest : List Bool) : flag (bit :: rest) = .ok (bit, rest) := by
  refine (Decoder.bind_of_ok (take_append [bit] rest)).trans ?_
  cases bit <;> rfl

/-- The fields `mod reg r/m` and the displacement, if any, for operands of a width. The register
comes first. -/
def modeOperands (settings : Settings.Decoder) (width : Width) : Scan Operands := do
  let mode ← take 2
  let register ← register width
  let location ← location settings (.ofField mode) width
  return ⟨.register register, location⟩

theorem registerMemoryOperands_cons (d w : Bool) (rest : List Bool) :
    registerMemoryOperands settings (d :: w :: rest) =
      (do return (← modeOperands settings (.ofFlag w)).inDirection d : Scan Operands) rest := by
  rw [registerMemoryOperands, Decoder.bind_of_ok (flag_cons d _),
    Decoder.bind_of_ok (flag_cons w _), modeOperands]
  simp only [bind_assoc, pure_bind]
  cases d <;> rfl

theorem location_other (mode : Mode) (width : Width) :
    location settings mode width.other = (do
      return (← location settings mode width).otherWidth : Scan Operand) := by
  cases mode <;> simp only [location, register, bind_assoc, pure_bind, Operand.otherWidth]

theorem modeOperands_other (width : Width) :
    modeOperands settings width.other = (do
      return (← modeOperands settings width).otherWidth : Scan Operands) := by
  simp only [modeOperands, location_other, register, bind_assoc, pure_bind, Operands.otherWidth,
    Operand.otherWidth]

/-- The two bits behind the leading four play no part, the next one is the direction and the last
one the width. -/
theorem instruction_registerMemory (e f d w : Bool) (rest : List Bool) :
    instruction settings (true :: false :: false :: false :: e :: f :: d :: w :: rest) = (do
      let operands ← modeOperands settings (.ofFlag w)
      return .move .moveRegisterMemory (operands.inDirection d) : Scan Finding) rest := by
  have hclassify : classify Opcode.standard
      (true :: false :: false :: false :: e :: f :: d :: w :: rest) =
        .ok (⟨.moveRegisterMemory, 6, 8#4 ++ BitVec.ofNat 2 (Image.bitsValue [e, f])⟩,
          d :: w :: rest) := by
    have hnibble := take_append [true, false, false, false] (e :: f :: d :: w :: rest)
    refine (Decoder.bind_of_ok hnibble).trans ?_
    refine (congrFun classifyNibble_eight (e :: f :: d :: w :: rest)).trans ?_
    exact Decoder.bind_of_ok (take_append [e, f] (d :: w :: rest))
  rw [instruction, Decoder.bind_of_ok hclassify]
  change (registerMemoryOperands settings >>= fun operands =>
    return .move .moveRegisterMemory operands : Scan Finding) (d :: w :: rest) = _
  rw [Decoder.bind_apply, registerMemoryOperands_cons, Decoder.bind_apply, Decoder.bind_apply]
  cases modeOperands settings (.ofFlag w) rest <;> rfl

theorem outcome_mapOperands {bits others : List Bool} {f : Operands → Operands}
    (hlength : others.length = bits.length)
    (h : instruction settings others =
      (instruction settings bits).map fun p => (p.1.mapOperands f, p.2)) :
    outcome settings others = (outcome settings bits).map (Move.mapOperands f) := by
  rw [outcome, outcome, h, hlength]
  cases instruction settings bits with
  | error shortage => rfl
  | ok p =>
    obtain ⟨finding, rest⟩ := p
    cases finding <;> rfl

theorem exists_firstBits {bits : List Bool} (hlength : 8 ≤ bits.length)
    (hnibble : bits.take 4 = [true, false, false, false]) :
    ∃ e f d w rest, bits = true :: false :: false :: false :: e :: f :: d :: w :: rest := by
  match bits, hlength, hnibble with
  | _ :: _ :: _ :: _ :: e :: f :: d :: w :: rest, _, hnibble =>
    cases hnibble
    exact ⟨e, f, d, w, rest, rfl⟩

section FirstBits

variable (e f d w : Bool) (rest : List Bool)

/-- The bits behind the leading four are not looked at. -/
theorem outcome_extension (e' f' : Bool) :
    outcome settings (true :: false :: false :: false :: e' :: f' :: d :: w :: rest) =
      outcome settings (true :: false :: false :: false :: e :: f :: d :: w :: rest) := by
  rw [outcome, outcome, instruction_registerMemory, instruction_registerMemory]
  rfl

/-- The other direction exchanges the operands. -/
theorem outcome_direction :
    outcome settings (true :: false :: false :: false :: e :: f :: (!d) :: w :: rest) =
      (outcome settings (true :: false :: false :: false :: e :: f :: d :: w :: rest)).map
        (Move.mapOperands Operands.exchange) := by
  refine outcome_mapOperands rfl ?_
  rw [instruction_registerMemory, instruction_registerMemory, Decoder.bind_apply,
    Decoder.bind_apply]
  cases modeOperands settings (.ofFlag w) rest with
  | error shortage => rfl
  | ok p => cases d <;> rfl

/-- The other width gives the registers this width. -/
theorem outcome_width :
    outcome settings (true :: false :: false :: false :: e :: f :: d :: (!w) :: rest) =
      (outcome settings (true :: false :: false :: false :: e :: f :: d :: w :: rest)).map
        (Move.mapOperands Operands.otherWidth) := by
  refine outcome_mapOperands rfl ?_
  rw [instruction_registerMemory, instruction_registerMemory, Width.ofFlag_not,
    modeOperands_other, Decoder.bind_apply, Decoder.bind_apply, Decoder.bind_apply]
  cases modeOperands settings (.ofFlag w) rest with
  | error shortage => rfl
  | ok p => cases d <;> rfl

theorem exists_shortage_of_outcome {cause : Fault.Cause}
    (h : outcome settings (true :: false :: false :: false :: e :: f :: d :: w :: rest) =
      .error cause) : ∃ shortage : Shortage, cause = shortage.cause := by
  rw [outcome, instruction_registerMemory, Decoder.bind_apply] at h
  cases hoperands : modeOperands settings (.ofFlag w) rest with
  | error shortage =>
    rw [hoperands] at h
    cases h
    exact ⟨shortage, rfl⟩
  | ok p =>
    rw [hoperands] at h
    cases h

end FirstBits

end Scan

/-! ### Decode steps -/

namespace Decoder

variable {image other : Image} {settings : Settings.Decoder} {address : Int}

/-- The instruction at a position, with the position behind it. -/
def resultAt (settings : Settings.Decoder) (address : Int) (reader : BitReader image) :
    Except Error (Instruction × Nat) :=
  (instructionAt settings address reader).map fun p => (p.1, p.2.position)

theorem resultAt_of_outcome {reader : BitReader image} {move : Move} (address : Int)
    (h : Scan.outcome settings reader.bits = .ok move) :
    ∃ i : Instruction, i.address = address.toNat ∧ i.move = move ∧
      resultAt settings address reader =
        if 0 ≤ address then .ok (i, reader.position + 8 * move.size) else .error .outOfRange := by
  obtain ⟨i, next, hdecode, haddress, hmove, hnext⟩ := instruction_of_outcome address.toNat h
  refine ⟨i, haddress, hmove, ?_⟩
  rw [resultAt, instructionAt, bind_of_ok hdecode, ← hnext]
  split <;> rfl

/-- Two positions at the same place in images of the same size, where the bits that are left have
the same outcome but for the operands. -/
theorem resultAt_mapOperands {reader : BitReader image} {elsewhere : BitReader other}
    {f : Operands → Operands} (hsize : other.size = image.size)
    (hposition : elsewhere.position = reader.position)
    (h : Scan.outcome settings elsewhere.bits =
      (Scan.outcome settings reader.bits).map (Move.mapOperands f)) :
    resultAt settings address elsewhere =
      (resultAt settings address reader).map (Prod.map (Instruction.mapOperands f) id) := by
  cases houtcome : Scan.outcome settings reader.bits with
  | error cause =>
    rw [houtcome] at h
    rw [resultAt, resultAt, instructionAt_of_cause houtcome, instructionAt_of_cause h, hsize,
      BitReader.byteIndex, BitReader.byteIndex, hposition]
    rfl
  | ok move =>
    rw [houtcome] at h
    obtain ⟨i, haddress, hmove, hi⟩ := resultAt_of_outcome address houtcome
    obtain ⟨j, haddress', hmove', hj⟩ := resultAt_of_outcome address h
    have heq : j = i.mapOperands f :=
      Instruction.eq_of_move (haddress'.trans haddress.symm) (hmove'.trans (by rw [← hmove]; rfl))
    rw [hi, hj, heq, hposition]
    split <;> rfl

theorem resultAt_flip_mapOperands {reader : BitReader image} {offset : Nat}
    (f : Operands → Operands) (h : Scan.outcome settings (reader.bits.modify offset not) =
      (Scan.outcome settings reader.bits).map (Move.mapOperands f)) :
    resultAt settings address (reader.flip offset) =
      (resultAt settings address reader).map (Prod.map (Instruction.mapOperands f) id) := by
  rw [← BitReader.bits_flip] at h
  exact resultAt_mapOperands (image.size_flip _) rfl h

theorem resultAt_flip_eq {reader : BitReader image} {offset : Nat}
    (h : Scan.outcome settings (reader.bits.modify offset not) =
      Scan.outcome settings reader.bits) :
    resultAt settings address (reader.flip offset) = resultAt settings address reader := by
  have hid : (Scan.outcome settings reader.bits).map (Move.mapOperands id) =
      Scan.outcome settings reader.bits := by
    cases Scan.outcome settings reader.bits <;> rfl
  rw [resultAt_flip_mapOperands id (h.trans hid.symm)]
  cases resultAt settings address reader <;> rfl

/-- Where a field is missing unless there is a move, the image is truncated or the address is
refused. -/
theorem error_of_resultAt {reader : BitReader image} {error : Error}
    (hshortage : ∀ cause, Scan.outcome settings reader.bits = .error cause →
      ∃ shortage : Shortage, cause = shortage.cause)
    (h : resultAt settings address reader = .error error) :
    (∃ requested available : Nat, available < requested ∧ error = .decode
        { offset := image.size, cause := .truncated requested available,
          starts := [reader.byteIndex] }) ∨
      address < 0 ∧ error = .outOfRange := by
  cases houtcome : Scan.outcome settings reader.bits with
  | error cause =>
    obtain ⟨shortage, rfl⟩ := hshortage cause houtcome
    rw [resultAt, instructionAt_of_cause houtcome] at h
    cases h
    exact .inl ⟨shortage.requested, shortage.available, shortage.available_lt, rfl⟩
  | ok move =>
    obtain ⟨i, -, -, hi⟩ := resultAt_of_outcome address houtcome
    rw [hi] at h
    split at h
    · cases h
    · rename_i hneg
      cases h
      exact .inr ⟨by omega, rfl⟩

/-- One of the last four bits of the first byte of a move between registers and memory is changed,
whatever its place within the bytes of the image. The bits behind the leading four do not matter,
the direction exchanges the operands, and the width gives the registers the other width. Nothing
else of the instruction changes, nor does the position behind it. Where there is no instruction, the
image is truncated or the address is below zero, with the change as without it. -/
theorem resultAt_flip (settings : Settings.Decoder) (address : Int) (reader : BitReader image)
    (hlength : 8 ≤ reader.remaining)
    (hnibble : reader.bits.take 4 = [true, false, false, false]) :
    resultAt settings address (reader.flip 4) = resultAt settings address reader ∧
      resultAt settings address (reader.flip 5) = resultAt settings address reader ∧
      resultAt settings address (reader.flip 6) =
        (resultAt settings address reader).map (Prod.map Instruction.exchange id) ∧
      resultAt settings address (reader.flip 7) =
        (resultAt settings address reader).map (Prod.map Instruction.otherWidth id) ∧
      ∀ error, resultAt settings address reader = .error error →
        (∃ requested available : Nat, available < requested ∧ error = .decode
            { offset := image.size, cause := .truncated requested available,
              starts := [reader.byteIndex] }) ∨
          address < 0 ∧ error = .outOfRange := by
  rw [← BitReader.length_bits] at hlength
  obtain ⟨e, f, d, w, rest, hbits⟩ := Scan.exists_firstBits hlength hnibble
  refine ⟨resultAt_flip_eq ?_, resultAt_flip_eq ?_,
    resultAt_flip_mapOperands Operands.exchange ?_,
    resultAt_flip_mapOperands Operands.otherWidth ?_,
    fun error => error_of_resultAt fun cause hcause => ?_⟩
  · rw [hbits]
    exact Scan.outcome_extension e f d w rest (!e) f
  · rw [hbits]
    exact Scan.outcome_extension e f d w rest e (!f)
  · rw [hbits]
    exact Scan.outcome_direction e f d w rest
  · rw [hbits]
    exact Scan.outcome_width e f d w rest
  · rw [hbits] at hcause
    exact Scan.exists_shortage_of_outcome e f d w rest hcause

/-- The load of `ax` from `bx + 4`, in the middle of a byte: with the other direction it is a store,
and with the other width a load of `al`. -/
theorem resultAt_flip_load :
    ∃ reader : BitReader #[0x08, 0xB4, 0x70, 0x40], reader.bitOffset = 4 ∧
      8 ≤ reader.remaining ∧ reader.bits.take 4 = [true, false, false, false] ∧
      ∃ i : Instruction, i.text = "mov ax, [bx + 4]" ∧
        resultAt {} 256 reader = .ok (i, 28) ∧ resultAt {} 256 (reader.flip 5) = .ok (i, 28) ∧
        resultAt {} 256 (reader.flip 6) = .ok (i.exchange, 28) ∧
        i.exchange.text = "mov [bx + 4], ax" ∧
        resultAt {} 256 (reader.flip 7) = .ok (i.otherWidth, 28) ∧
        i.otherWidth.text = "mov al, [bx + 4]" := by
  let reader : BitReader #[0x08, 0xB4, 0x70, 0x40] := ⟨4, by decide⟩
  have houtcome : Scan.outcome {} reader.bits = .ok ⟨.moveRegisterMemory,
      ⟨.register ⟨.word, 0⟩, .memory (.offset .bx (.byte 4))⟩, 3⟩ := by decide
  obtain ⟨i, haddress, hmove, hi⟩ := resultAt_of_outcome 256 houtcome
  obtain rfl : i = ⟨256, 3, .moveRegisterMemory, .register ⟨.word, 0⟩,
    .memory (.offset .bx (.byte 4)), by decide, by decide, rfl⟩ :=
    Instruction.eq_of_move haddress hmove
  have hlength : 8 ≤ reader.remaining := by decide
  have hnibble : reader.bits.take 4 = [true, false, false, false] := by decide
  obtain ⟨-, hextension, hdirection, hwidth, -⟩ := resultAt_flip {} 256 reader hlength hnibble
  rw [hi] at hextension hdirection hwidth
  exact ⟨reader, rfl, hlength, hnibble, _, rfl, hi, hextension, hdirection, rfl, hwidth, rfl⟩

end Decoder

end MachineCode
