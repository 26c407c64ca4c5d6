import MachineCode.Proofs.ByteString.Basic

/-!
# Fields of bytes

The fields of an instruction are read bit by bit, but the bits that are left inside a byte are known
from the byte and the place in it. This file finds every field of an instruction in the bytes that
hold it.

## Main definitions

* `Scan.insideByte` : the bits from a place inside a byte on.
* `Scan.resume` : what is found in some bytes, and the bits behind it.

## Main results

* `Scan.take_insideByte` : a field within a byte is cut out by a shift.
* `Scan.registerMemoryOperands_insideByte`, `Scan.immediateRegisterOperands_insideByte` : operands
  are found in the bytes that hold them.
* `Scan.classify_cons` : the upper half of a byte is looked up in an opcode table.
-/

namespace MachineCode

theorem forall_byte {p : UInt8 → Prop} (h : ∀ n : Fin 256, p (.ofNat n.val)) (b : UInt8) : p b := by
  have := h ⟨b.toNat, b.toNat_lt⟩
  rwa [UInt8.ofNat_toNat] at this

namespace Scan

open Image

/-- The bits of a byte from an offset on, and those of the bytes behind it. -/
def insideByte (b : UInt8) (offset : Nat) (rest : List UInt8) : List Bool :=
  (byteBits b).drop offset ++ rest.flatMap byteBits

theorem flatMap_cons_eq (b : UInt8) (rest : List UInt8) :
    (b :: rest).flatMap byteBits = insideByte b 0 rest :=
  rfl

theorem insideByte_eight (b : UInt8) (rest : List UInt8) :
    insideByte b 8 rest = rest.flatMap byteBits :=
  rfl

/-- A field within a byte is cut out by a shift. -/
theorem take_insideByte (b : UInt8) {offset count : Nat} (h : offset + count ≤ 8)
    (rest : List UInt8) :
    take count (insideByte b offset rest) =
      .ok (.ofNat count (b.toNat >>> (8 - offset - count)),
        insideByte b (offset + count) rest) := by
  have hlength : ((byteBits b).drop offset).length = 8 - offset := by simp
  have hle : count ≤ (insideByte b offset rest).length := by
    rw [insideByte, List.length_append]
    omega
  have hvalue : BitVec.ofNat count (bitsValue (((byteBits b).drop offset).take count)) =
      BitVec.ofNat count (b.toNat >>> (8 - offset - count)) := by
    rw [bitsValue_within_byte b h, Nat.shiftLeft_eq, Nat.one_mul, Nat.and_two_pow_sub_one_eq_mod]
    exact BitVec.eq_of_toNat_eq (by simp)
  rw [take, dif_pos hle, insideByte, List.take_append_of_le_length (by omega), hvalue,
    List.drop_append_of_le_length (by omega), List.drop_drop, insideByte]

theorem take_nil {count : Nat} (h : 0 < count) : take count [] = .error ⟨count, 0, h⟩ := by
  rw [take, dif_neg (by simp; omega)]
  rfl

theorem flag_insideByte (b : UInt8) {offset : Nat} (h : offset < 8) (rest : List UInt8) :
    flag (insideByte b offset rest) =
      .ok (b.toNat.testBit (7 - offset), insideByte b (offset + 1) rest) := by
  have hbit : (BitVec.ofNat 1 (b.toNat >>> (8 - offset - 1)) == 1) =
      b.toNat.testBit (7 - offset) := by
    rw [Nat.testBit, show 8 - offset - 1 = 7 - offset by omega, Nat.and_comm, Nat.and_one_is_mod]
    rcases Nat.mod_two_eq_zero_or_one (b.toNat >>> (7 - offset)) with hmod | hmod
    · simp [hmod, BitVec.ofNat, Fin.ofNat]
    · simp [hmod, BitVec.ofNat, Fin.ofNat]
  rw [flag, Decoder.bind_of_ok (take_insideByte b (by omega) rest), Decoder.pure_apply, hbit]

theorem register_insideByte (width : Width) (b : UInt8) {offset : Nat} (h : offset + 3 ≤ 8)
    (rest : List UInt8) :
    register width (insideByte b offset rest) =
      .ok (⟨width, .ofNat 3 (b.toNat >>> (8 - offset - 3))⟩, insideByte b (offset + 3) rest) :=
  Decoder.bind_of_ok (take_insideByte b h rest)

/-- What is found in some bytes, and the bits of those behind it. Where nothing is found, a whole
byte is missing. -/
def resume {α : Type} (bytes : List UInt8) : Option (α × Nat) → Except Shortage (α × List Bool)
  | some (a, count) => .ok (a, (bytes.drop count).flatMap byteBits)
  | none => .error ⟨8, 0, Nat.zero_lt_succ 7⟩

theorem resume_map {α β : Type} (f : α → β) (bytes : List UInt8) (found : Option (α × Nat)) :
    resume bytes (found.map fun p => (f p.1, p.2)) =
      (resume bytes found).bind fun p => .ok (f p.1, p.2) := by
  cases found <;> rfl

theorem word_eq_append (low high : UInt8) :
    BitVec.ofNat 16 (low.toNat + 256 * high.toNat) =
      BitVec.ofNat 8 high.toNat ++ BitVec.ofNat 8 low.toNat := by
  have hlow := low.toNat_lt
  have hhigh := high.toNat_lt
  refine BitVec.eq_of_toNat_eq ?_
  rw [BitVec.toNat_append, BitVec.toNat_ofNat, BitVec.toNat_ofNat, BitVec.toNat_ofNat,
    Nat.mod_eq_of_lt hlow, Nat.mod_eq_of_lt hhigh, ← Nat.shiftLeft_add_eq_or_of_lt hlow,
    Nat.shiftLeft_eq]
  omega

/-- A literal is read off the bytes at the front. -/
theorem immediate_flatMap_byteBits (width : Width) (bytes : List UInt8) :
    immediate width (bytes.flatMap byteBits) = resume bytes (ByteString.literal width bytes) := by
  rcases bytes with _ | ⟨low, bytes⟩
  · rw [immediate, List.flatMap_nil, Decoder.bind_of_error (take_nil (show 0 < 8 by omega))]
    cases width <;> rfl
  · rw [immediate, flatMap_cons_eq, Decoder.bind_of_ok (take_insideByte low (by omega) bytes)]
    cases width with
    | byte => rfl
    | word =>
      rcases bytes with _ | ⟨high, bytes⟩
      · exact Decoder.bind_of_error (take_nil (show 0 < 8 by omega))
      · refine (Decoder.bind_of_ok (take_insideByte high (show 0 + 8 ≤ 8 by omega) bytes)).trans ?_
        rw [ByteString.literal, word_eq_append]
        rfl

theorem bind_immediate_flatMap_byteBits {α : Type} (f : Immediate → α) (width : Width)
    (bytes : List UInt8) :
    (immediate width >>= fun i => pure (f i)) (bytes.flatMap byteBits) =
      resume bytes ((ByteString.literal width bytes).map fun p => (f p.1, p.2)) := by
  rw [resume_map, ← immediate_flatMap_byteBits]
  rfl

/-! ### Parts of a byte -/

theorem toNat_high (b : UInt8) : (b >>> 4).toNat = b.toNat / 16 := by
  rw [UInt8.toNat_shiftRight, Nat.shiftRight_eq_div_pow]
  rfl

theorem toNat_mode (m : UInt8) : (m >>> 6).toNat = m.toNat / 64 := by
  rw [UInt8.toNat_shiftRight, Nat.shiftRight_eq_div_pow]
  rfl

theorem toNat_low (m : UInt8) : (m &&& 7).toNat = m.toNat % 8 :=
  Nat.and_two_pow_sub_one_eq_mod m.toNat 3

theorem toNat_middle (m : UInt8) : ((m >>> 3) &&& 7).toNat = m.toNat / 8 % 8 := by
  rw [toNat_low, UInt8.toNat_shiftRight, Nat.shiftRight_eq_div_pow]
  rfl

theorem testBit_eq_decide (b mask : UInt8) (i : Nat) (h : mask.toNat = 2 ^ i) :
    b.toNat.testBit i = decide (b &&& mask = mask) := by
  have hne : 2 ^ i ≠ 0 := by positivity
  rw [Bool.eq_iff_iff, decide_eq_true_iff, ← UInt8.toNat_inj, UInt8.toNat_and, h, Nat.and_two_pow]
  cases b.toNat.testBit i <;> simp [hne.symm]

theorem ofNat_eq_iff {b : UInt8} {count : Nat} (h : b.toNat < 2 ^ count) (hcount : count ≤ 8)
    (n : BitVec count) : .ofNat count b.toNat = n ↔ b = .ofNat n.toNat := by
  have hvalue : (UInt8.ofNat n.toNat).toNat = n.toNat := by
    have := n.isLt.trans_le (Nat.pow_le_pow_right (by omega) hcount)
    rw [UInt8.toNat_ofNat', Nat.mod_eq_of_lt (by omega)]
  rw [← BitVec.toNat_inj, ← UInt8.toNat_inj, BitVec.toNat_ofNat, Nat.mod_eq_of_lt h, hvalue]

theorem toNat_nibble (b : UInt8) : (BitVec.ofNat 4 (b.toNat >>> 4)).toNat = (b >>> 4).toNat := by
  have := b.toNat_lt
  rw [BitVec.toNat_ofNat, toNat_high, Nat.shiftRight_eq_div_pow]
  omega

theorem nibble_eq_iff (b : UInt8) (n : BitVec 4) :
    n = .ofNat 4 (b.toNat >>> 4) ↔ b >>> 4 = .ofNat n.toNat := by
  have hlt : (b >>> 4).toNat < 2 ^ 4 := by
    have := b.toNat_lt
    rw [toNat_high]
    omega
  rw [eq_comm, ← ofNat_eq_iff hlt (by omega), UInt8.toNat_shiftRight]
  rfl

theorem ofNat_low (m : UInt8) : BitVec.ofNat 3 m.toNat = .ofNat 3 (m &&& 7).toNat := by
  refine BitVec.eq_of_toNat_eq ?_
  rw [BitVec.toNat_ofNat, BitVec.toNat_ofNat, toNat_low, Nat.mod_mod]

theorem ofNat_middle (m : UInt8) :
    BitVec.ofNat 3 (m.toNat >>> 3) = .ofNat 3 ((m >>> 3) &&& 7).toNat := by
  rw [← ofNat_low, UInt8.toNat_shiftRight]
  rfl

theorem ofField_low_eq_bp (m : UInt8) :
    Base.ofField (.ofNat 3 (m &&& 7).toNat) = .bp ↔ m &&& 7 = 6 := by
  have hbp : ∀ field : BitVec 3, Base.ofField field = .bp ↔ field = 6 := by decide
  have hlt : (m &&& 7).toNat < 2 ^ 3 := by
    rw [toNat_low]
    omega
  rw [hbp, ofNat_eq_iff hlt (by omega)]
  rfl

theorem mode_cases (m : UInt8) : m >>> 6 = 0 ∨ m >>> 6 = 1 ∨ m >>> 6 = 2 ∨ m >>> 6 = 3 := by
  have := m.toNat_lt
  simp only [← UInt8.toNat_inj, toNat_mode, UInt8.toNat_zero, UInt8.reduceToNat]
  omega

/-! ### Operands -/

/-- The displacement that a mode byte selects, unless it selects a register. -/
def displacementMode (m : UInt8) : DisplacementMode :=
  if m >>> 6 = 0 then .absent else if m >>> 6 = 1 then .byte else .word

theorem ofField_mode (m : UInt8) :
    Mode.ofField (.ofNat 2 (m.toNat >>> 6)) =
      if m >>> 6 = 3 then .register else .memory (displacementMode m) := by
  have hfield : BitVec.ofNat 2 (m.toNat >>> 6) = .ofNat 2 (m >>> 6).toNat := by
    rw [UInt8.toNat_shiftRight]
    rfl
  rw [hfield, displacementMode]
  rcases mode_cases m with h | h | h | h <;>
    · rw [h]
      rfl

theorem take_low (m : UInt8) (rest : List UInt8) :
    take 3 (insideByte m 5 rest) = .ok (.ofNat 3 (m &&& 7).toNat, rest.flatMap byteBits) := by
  rw [take_insideByte m (by omega), ← ofNat_low]
  rfl

/-- The memory operand of a mode byte is read off its last field and the bytes behind it. -/
theorem effectiveAddress_insideByte (settings : Settings.Decoder) (m : UInt8)
    (rest : List UInt8) :
    effectiveAddress settings (displacementMode m) (insideByte m 5 rest) =
      resume rest (ByteString.address settings m rest) := by
  have hbase : base (insideByte m 5 rest) =
      .ok (.ofField (.ofNat 3 (m &&& 7).toNat), rest.flatMap byteBits) :=
    Decoder.bind_of_ok (take_low m rest)
  rw [effectiveAddress, Decoder.bind_of_ok hbase, displacementMode, ByteString.address]
  by_cases hbare : m >>> 6 = 0
  · simp only [if_pos hbare, ofField_low_eq_bp]
    by_cases hdirect : settings.directAddress = true ∧ m &&& 7 = 6
    · simp only [if_pos hdirect]
      exact bind_immediate_flatMap_byteBits EffectiveAddress.direct .word rest
    · simp only [if_neg hdirect]
      rfl
  · by_cases hbyte : m >>> 6 = 1
    · simp only [if_neg hbare, if_pos hbyte]
      exact bind_immediate_flatMap_byteBits (EffectiveAddress.offset _) .byte rest
    · simp only [if_neg hbare, if_neg hbyte]
      exact bind_immediate_flatMap_byteBits (EffectiveAddress.offset _) .word rest

/-- Any operand of a mode byte is read off that byte and the bytes behind it. -/
theorem location_insideByte (settings : Settings.Decoder) (width : Width) (m : UInt8)
    (rest : List UInt8) :
    location settings (.ofField (.ofNat 2 (m.toNat >>> 6))) width (insideByte m 5 rest) =
      resume rest (ByteString.location settings width m rest) := by
  rw [ofField_mode, ByteString.location]
  by_cases hregister : m >>> 6 = 3
  · rw [if_pos hregister, if_pos hregister]
    have hread : register width (insideByte m 5 rest) =
        .ok (⟨width, .ofNat 3 (m &&& 7).toNat⟩, rest.flatMap byteBits) :=
      Decoder.bind_of_ok (take_low m rest)
    exact Decoder.bind_of_ok hread
  · rw [if_neg hregister, if_neg hregister, resume_map, ← effectiveAddress_insideByte]
    rfl

/-- The operands of a move between registers and memory are read off the last two bits of the opcode
byte, the mode byte and the bytes behind it. -/
theorem registerMemoryOperands_insideByte (settings : Settings.Decoder) (opcode m : UInt8)
    (rest : List UInt8) :
    registerMemoryOperands settings (insideByte opcode 6 (m :: rest)) =
      resume rest ((ByteString.location settings (ByteString.width opcode) m rest).map fun p =>
        (ByteString.operands opcode m p.1, p.2)) := by
  rw [registerMemoryOperands, Decoder.bind_of_ok (flag_insideByte opcode (by omega) _),
    Decoder.bind_of_ok (flag_insideByte opcode (by omega) _), insideByte_eight, flatMap_cons_eq,
    Decoder.bind_of_ok (take_insideByte m (by omega) rest),
    Decoder.bind_of_ok (register_insideByte _ m (by omega) rest), resume_map,
    show 7 - (6 + 1) = 0 from rfl, show 7 - 6 = 1 from rfl, testBit_eq_decide opcode 1 0 rfl,
    testBit_eq_decide opcode 2 1 rfl, ofNat_middle]
  refine Eq.trans ?_ (congrArg (Except.bind · _)
    (location_insideByte settings (ByteString.width opcode) m rest))
  rw [Decoder.bind_apply]
  refine congrArg (Except.bind _) (funext fun p => ?_)
  by_cases h : opcode &&& 2 = 2
  · simp only [h, decide_true, if_true, ByteString.operands]
    rfl
  · simp only [h, decide_false, ByteString.operands]
    rfl

/-- The operands of a move of a literal are read off the rest of the opcode byte and the bytes
behind it. -/
theorem immediateRegisterOperands_insideByte (opcode : UInt8) (rest : List UInt8) :
    immediateRegisterOperands (insideByte opcode 4 rest) =
      resume rest ((ByteString.literal (ByteString.literalWidth opcode) rest).map fun p =>
        (ByteString.literalOperands opcode p.1, p.2)) := by
  rw [immediateRegisterOperands, Decoder.bind_of_ok (flag_insideByte opcode (by omega) _),
    Decoder.bind_of_ok (register_insideByte _ opcode (by omega) rest), insideByte_eight,
    show 7 - 4 = 3 from rfl, testBit_eq_decide opcode 8 3 rfl,
    show opcode.toNat >>> (8 - (4 + 1) - 3) = opcode.toNat from rfl, ofNat_low]
  exact bind_immediate_flatMap_byteBits (ByteString.literalOperands opcode) _ rest

theorem groupLayout_cons (settings : Settings.Decoder) (m : UInt8) (rest : List UInt8) :
    groupLayout settings ((m :: rest).flatMap byteBits) =
      resume rest ((ByteString.location settings .word m rest).map fun p => ((), p.2)) := by
  refine Eq.trans ?_ (resume_map (fun _ => ()) rest _).symm
  rw [groupLayout, flatMap_cons_eq, Decoder.bind_of_ok (take_insideByte m (by omega) rest),
    Decoder.bind_of_ok (take_insideByte m (by omega) rest), ← location_insideByte]
  rfl

/-! ### Opcodes -/

/-- The leading four bits of a byte are looked up in the table. -/
theorem classify_cons (table : List Opcode.Row) (b : UInt8) (rest : List UInt8) :
    classify table ((b :: rest).flatMap byteBits) =
      classifyNibble (.ofNat 4 (b.toNat >>> 4)) table (insideByte b 4 rest) := by
  rw [classify, flatMap_cons_eq, Decoder.bind_of_ok (take_insideByte b (by omega) rest)]

theorem classifyNibble_eight : classifyNibble 8 Opcode.standard = (do
    let bits ← take 2
    return ⟨.moveRegisterMemory, 6, 8#4 ++ bits⟩) :=
  rfl

theorem classifyNibble_standard_of_ne {n : BitVec 4} (h8 : 8 ≠ n) (h11 : 11 ≠ n) (h12 : 12 ≠ n)
    (h10 : 10 ≠ n) (h15 : 15 ≠ n) :
    classifyNibble n Opcode.standard = pure ⟨.unrecognized, 4, n⟩ := by
  refine classifyNibble_of_forall_ne fun row hrow => ?_
  fin_cases hrow <;> assumption

theorem low_nibble_eq_iff {b : UInt8} (h : b >>> 4 = 15) :
    BitVec.ofNat 4 b.toNat = 15 ↔ b = 0xFF := by
  have hhigh := toNat_high b
  rw [h] at hhigh
  rw [← BitVec.toNat_inj, ← UInt8.toNat_inj, BitVec.toNat_ofNat]
  simp only [UInt8.reduceToNat, BitVec.reduceToNat] at hhigh ⊢
  omega

/-- Of the opcodes with the leading bits `1111`, only one is known. -/
theorem classify_fifteen {b : UInt8} (h : b >>> 4 = 15) (rest : List UInt8) :
    classify Opcode.standard ((b :: rest).flatMap byteBits) =
      if b = 0xFF then
        .ok (⟨.registerMemoryGroup, 8, 15#4 ++ 15#4⟩, rest.flatMap byteBits)
      else
        .ok (⟨.unrecognized, 4, 15⟩, insideByte b 4 rest) := by
  have hrows : classifyNibble 15 Opcode.standard = (do
      let behindNibble ← get
      let bits ← take 4
      if bits = 15 then
        return ⟨.registerMemoryGroup, 8, 15#4 ++ bits⟩
      else
        set behindNibble
        return ⟨.unrecognized, 4, 15⟩) := rfl
  rw [classify_cons, ← (nibble_eq_iff b 15).2 h, hrows, Decoder.bind_of_ok (Decoder.get_apply _),
    Decoder.bind_of_ok (take_insideByte b (by omega) rest),
    show b.toNat >>> (8 - 4 - 4) = b.toNat from rfl]
  by_cases hb : b = 0xFF
  · rw [if_pos hb, if_pos ((low_nibble_eq_iff h).2 hb)]
    subst hb
    rfl
  · rw [if_neg hb, if_neg (mt (low_nibble_eq_iff h).1 hb)]
    rfl

end Scan

end MachineCode
