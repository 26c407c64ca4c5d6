import MachineCode.Proofs.Sweep.Step

/-!
# Encodings of moves

The decoder gives moves of a few shapes only. Every move of such a shape has an encoding that
decodes to it, whatever the bytes behind it are. The encoding is made of whole fields that are put
side by side, where the decoder of bytes cuts them out by masks.

## Main definitions

* `Move.WellFormed` : the shapes of decoded moves.
* `Move.encode` : bytes that decode to a move.

## Main results

* `Move.wellFormed_of_outcome` : moves that bytes decode to are of these shapes.
* `Move.outcome_encode` : the encoding of a move decodes to the move.
* `Move.flatMap_encode_injective` : encodings one behind the other determine the moves.
-/

namespace MachineCode

/-! ### Fields and bytes -/

/-- The flag that selects a width. -/
def Width.flag : Width → BitVec 1
  | .byte => 0
  | .word => 1

/-- The bytes of a literal, the low byte of a word first. -/
def Immediate.bytes : Immediate → List UInt8
  | .byte v => [.ofNat v.toNat]
  | .word v => [.ofNat v.toNat, .ofNat (v.toNat / 256)]

/-- The mode byte with a mode, a register and an operand. -/
def modeByte (mode : BitVec 2) (register operand : BitVec 3) : UInt8 :=
  ⟨mode ++ register ++ operand⟩

/-- The opcode byte of a move between registers and memory. -/
def moveOpcode (registerIsDestination : BitVec 1) (width : Width) : UInt8 :=
  ⟨0b100010#6 ++ registerIsDestination ++ width.flag⟩

/-- The opcode byte of a move of a literal to a register. -/
def literalOpcode (register : Register) : UInt8 :=
  ⟨0b1011#4 ++ register.width.flag ++ register.index⟩

namespace EffectiveAddress

/-- The addresses that a mode byte can select. The place of a bare `bp` is that of a direct address,
where there are direct addresses. -/
def IsEncodable (settings : Settings.Decoder) : EffectiveAddress → Prop
  | .bare base => settings.directAddress = true → base ≠ .bp
  | .offset _ _ => True
  | .direct displacement => settings.directAddress = true ∧ displacement.width = .word

/-- The mode byte that selects an address. -/
def modeByte (register : BitVec 3) : EffectiveAddress → UInt8
  | .bare base => MachineCode.modeByte 0 register base.field
  | .offset base (.byte _) => MachineCode.modeByte 1 register base.field
  | .offset base (.word _) => MachineCode.modeByte 2 register base.field
  | .direct _ => MachineCode.modeByte 0 register 6

/-- The bytes of the displacement of an address. -/
def bytes : EffectiveAddress → List UInt8
  | .bare _ => []
  | .offset _ displacement => displacement.bytes
  | .direct displacement => displacement.bytes

end EffectiveAddress

namespace Move

/-- The shapes of decoded moves. -/
inductive WellFormed (settings : Settings.Decoder) : Move → Prop
  | literal (r : Register) (i : Immediate) (width : i.width = r.width) :
      WellFormed settings
        ⟨.moveImmediateRegister, ⟨.register r, .immediate i⟩, 1 + i.byteCount⟩
  | registers (r s : Register) (width : r.width = s.width) :
      WellFormed settings ⟨.moveRegisterMemory, ⟨.register r, .register s⟩, 2⟩
  | load (r : Register) (a : EffectiveAddress) (encodable : a.IsEncodable settings) :
      WellFormed settings
        ⟨.moveRegisterMemory, ⟨.register r, .memory a⟩, 2 + (Operand.memory a).byteCount⟩
  | store (r : Register) (a : EffectiveAddress) (encodable : a.IsEncodable settings) :
      WellFormed settings
        ⟨.moveRegisterMemory, ⟨.memory a, .register r⟩, 2 + (Operand.memory a).byteCount⟩

/-- Bytes that decode to a move. Of the two encodings of a move between registers, it is the one
whose mode byte selects the destination. -/
def encode (move : Move) : List UInt8 :=
  match move.operands with
  | ⟨.register r, .immediate i⟩ => literalOpcode r :: i.bytes
  | ⟨.register r, .register s⟩ => [moveOpcode 0 r.width, modeByte 3 s.index r.index]
  | ⟨.register r, .memory a⟩ => moveOpcode 1 r.width :: a.modeByte r.index :: a.bytes
  | ⟨.memory a, .register r⟩ => moveOpcode 0 r.width :: a.modeByte r.index :: a.bytes
  | _ => []

end Move

/-! ### Literals -/

theorem Immediate.length_bytes (i : Immediate) : i.bytes.length = i.byteCount := by
  cases i <;> rfl

theorem EffectiveAddress.length_bytes (a : EffectiveAddress) :
    a.bytes.length = (Operand.memory a).byteCount := by
  cases a with
  | bare base => rfl
  | offset base displacement => exact displacement.length_bytes
  | direct displacement => exact displacement.length_bytes

/-- The mode byte of an address with a base and a displacement tells the width of the
displacement. -/
theorem EffectiveAddress.modeByte_offset (base : Base) (displacement : Immediate)
    (register : BitVec 3) :
    (offset base displacement).modeByte register =
      MachineCode.modeByte (if displacement.width = .byte then 1 else 2) register base.field := by
  cases displacement <;> rfl

namespace ByteString

theorem ofNat_byte (b : UInt8) : UInt8.ofNat (BitVec.ofNat 8 b.toNat).toNat = b := by
  rw [BitVec.toNat_ofNat, Nat.mod_eq_of_lt b.toNat_lt, UInt8.ofNat_toNat]

/-- The bytes of a literal are a literal. -/
theorem literal_bytes (i : Immediate) (rest : List UInt8) :
    literal i.width (i.bytes ++ rest) = some (i, i.byteCount) := by
  cases i with
  | byte v =>
    have hvalue : BitVec.ofNat 8 (UInt8.ofNat v.toNat).toNat = v := by
      rw [UInt8.toNat_ofNat', Nat.mod_eq_of_lt v.isLt, BitVec.ofNat_toNat, BitVec.setWidth_eq]
    simp only [Immediate.width, Immediate.bytes, List.cons_append, literal, hvalue]
    rfl
  | word v =>
    have hlt := v.isLt
    have hvalue : BitVec.ofNat 16 ((UInt8.ofNat v.toNat).toNat +
        256 * (UInt8.ofNat (v.toNat / 256)).toNat) = v := by
      refine BitVec.eq_of_toNat_eq ?_
      rw [UInt8.toNat_ofNat', UInt8.toNat_ofNat', BitVec.toNat_ofNat]
      omega
    simp only [Immediate.width, Immediate.bytes, List.cons_append, literal, hvalue]
    rfl

/-- A literal is read off its own bytes. -/
theorem bytes_of_literal {width : Width} {rest : List UInt8} {p : Immediate × Nat}
    (h : literal width rest = some p) :
    p.1.width = width ∧ p.2 = p.1.byteCount ∧ rest.take p.2 = p.1.bytes := by
  simp only [literal] at h
  split at h
  · rename_i low rest
    cases h
    refine ⟨rfl, rfl, ?_⟩
    rw [List.take_succ_cons, List.take_zero, Immediate.bytes, ofNat_byte]
  · rename_i low high rest
    cases h
    refine ⟨rfl, rfl, ?_⟩
    have hlow := low.toNat_lt
    have hhigh := high.toNat_lt
    have hvalue : (BitVec.ofNat 16 (low.toNat + 256 * high.toNat)).toNat =
        low.toNat + 256 * high.toNat := by
      rw [BitVec.toNat_ofNat]
      omega
    have hfirst : UInt8.ofNat (low.toNat + 256 * high.toNat) = low := by
      refine UInt8.toNat_inj.1 ?_
      rw [UInt8.toNat_ofNat']
      omega
    have hsecond : UInt8.ofNat ((low.toNat + 256 * high.toNat) / 256) = high := by
      refine UInt8.toNat_inj.1 ?_
      rw [UInt8.toNat_ofNat']
      omega
    simp only [List.take_succ_cons, List.take_zero, Immediate.bytes, hvalue, hfirst, hsecond]
  · simp at h

/-! ### Mode bytes -/

theorem toNat_modeByte (mode : BitVec 2) (register operand : BitVec 3) :
    (modeByte mode register operand).toNat =
      (mode.toNat * 8 + register.toNat) * 8 + operand.toNat := by
  rw [modeByte, UInt8.toNat, BitVec.toNat_append, BitVec.toNat_append,
    ← Nat.shiftLeft_add_eq_or_of_lt operand.isLt, ← Nat.shiftLeft_add_eq_or_of_lt register.isLt,
    Nat.shiftLeft_eq, Nat.shiftLeft_eq]

theorem modeByte_mode (mode : BitVec 2) (register operand : BitVec 3) :
    modeByte mode register operand >>> 6 = .ofNat mode.toNat := by
  have := mode.isLt
  have := register.isLt
  have := operand.isLt
  refine UInt8.toNat_inj.1 ?_
  rw [Scan.toNat_mode, toNat_modeByte, UInt8.toNat_ofNat']
  omega

theorem modeByte_register (mode : BitVec 2) (register operand : BitVec 3) :
    BitVec.ofNat 3 ((modeByte mode register operand >>> 3) &&& 7).toNat = register := by
  have := register.isLt
  have := operand.isLt
  refine BitVec.eq_of_toNat_eq ?_
  rw [BitVec.toNat_ofNat, Scan.toNat_middle, toNat_modeByte]
  omega

theorem modeByte_operand (mode : BitVec 2) (register operand : BitVec 3) :
    modeByte mode register operand &&& 7 = .ofNat operand.toNat := by
  have := operand.isLt
  refine UInt8.toNat_inj.1 ?_
  rw [Scan.toNat_low, toNat_modeByte, UInt8.toNat_ofNat']
  omega

theorem eq_modeByte (m : UInt8) :
    m = modeByte (.ofNat 2 (m >>> 6).toNat) (.ofNat 3 ((m >>> 3) &&& 7).toNat)
      (.ofNat 3 (m &&& 7).toNat) := by
  have := m.toNat_lt
  refine UInt8.toNat_inj.1 ?_
  rw [toNat_modeByte, BitVec.toNat_ofNat, BitVec.toNat_ofNat, BitVec.toNat_ofNat,
    Scan.toNat_mode, Scan.toNat_middle, Scan.toNat_low]
  omega

theorem field_ofNat (field : BitVec 3) :
    BitVec.ofNat 3 (UInt8.ofNat field.toNat).toNat = field := by
  have := field.isLt
  refine BitVec.eq_of_toNat_eq ?_
  rw [BitVec.toNat_ofNat, UInt8.toNat_ofNat']
  omega

theorem base_field_eq_six {base : Base} : UInt8.ofNat base.field.toNat = 6 ↔ base = .bp := by
  cases base <;> decide

/-! ### Addresses -/

theorem mode_eq_width {m : UInt8} (h0 : m >>> 6 ≠ 0) (h3 : m >>> 6 ≠ 3) :
    ∃ width : Width, m >>> 6 = if width = .byte then 1 else 2 := by
  rcases Scan.mode_cases m with h | h | h | h
  · exact absurd h h0
  · exact ⟨.byte, h⟩
  · exact ⟨.word, h⟩
  · exact absurd h h3

theorem address_of_width (settings : Settings.Decoder) {m : UInt8} {width : Width}
    (h : m >>> 6 = if width = .byte then 1 else 2) (rest : List UInt8) :
    address settings m rest =
      (literal width rest).map fun p =>
        (.offset (.ofField (.ofNat 3 (m &&& 7).toNat)) p.1, p.2) := by
  cases width <;> simp [address, h]

/-- The mode byte of an address and its displacement select the address. -/
theorem address_modeByte {settings : Settings.Decoder} {a : EffectiveAddress}
    (h : a.IsEncodable settings) (register : BitVec 3) (rest : List UInt8) :
    address settings (a.modeByte register) (a.bytes ++ rest) =
      some (a, (Operand.memory a).byteCount) := by
  cases a with
  | bare base =>
    have hdirect : ¬ (settings.directAddress = true ∧ UInt8.ofNat base.field.toNat = 6) := by
      rw [base_field_eq_six]
      exact fun ⟨hdirect, hbase⟩ => h hdirect hbase
    simp only [address, EffectiveAddress.modeByte, modeByte_mode, modeByte_operand, field_ofNat,
      Base.ofField_field, if_neg hdirect]
    rfl
  | offset base displacement =>
    have hmode : (EffectiveAddress.offset base displacement).modeByte register >>> 6 =
        if displacement.width = .byte then 1 else 2 := by
      rw [EffectiveAddress.modeByte_offset, modeByte_mode]
      split <;> rfl
    rw [address_of_width settings hmode, EffectiveAddress.modeByte_offset, modeByte_operand,
      field_ofNat, Base.ofField_field, EffectiveAddress.bytes, literal_bytes]
    rfl
  | direct displacement =>
    obtain ⟨hdirect, hwidth⟩ := h
    have hliteral := literal_bytes displacement rest
    rw [hwidth] at hliteral
    simp only [address, EffectiveAddress.modeByte, modeByte_mode, modeByte_operand]
    rw [if_pos (by decide), if_pos ⟨hdirect, by decide⟩, EffectiveAddress.bytes, hliteral]
    rfl

/-- An address that a mode byte selects has this mode byte, and the displacement is behind it. -/
theorem of_address {settings : Settings.Decoder} {m : UInt8} {rest : List UInt8}
    {p : EffectiveAddress × Nat} (hmode : m >>> 6 ≠ 3) (h : address settings m rest = some p) :
    p.1.IsEncodable settings ∧ p.2 = (Operand.memory p.1).byteCount ∧
      m = p.1.modeByte (.ofNat 3 ((m >>> 3) &&& 7).toNat) ∧ rest.take p.2 = p.1.bytes := by
  have hbyte := eq_modeByte m
  by_cases hbare : m >>> 6 = 0
  · rw [hbare] at hbyte
    rw [address, if_pos hbare] at h
    by_cases hdirect : settings.directAddress = true ∧ m &&& 7 = 6
    · rw [if_pos hdirect] at h
      obtain ⟨q, hq, rfl⟩ := Option.map_eq_some_iff.1 h
      obtain ⟨hwidth, hcount, hbytes⟩ := bytes_of_literal hq
      rw [hdirect.2] at hbyte
      exact ⟨⟨hdirect.1, hwidth⟩, hcount, hbyte, hbytes⟩
    · rw [if_neg hdirect] at h
      cases h
      refine ⟨fun htrue hbp => hdirect ⟨htrue, (Scan.ofField_low_eq_bp m).1 hbp⟩, rfl, ?_, rfl⟩
      rw [EffectiveAddress.modeByte, Base.field_ofField]
      exact hbyte
  · obtain ⟨width, hwidth⟩ := mode_eq_width hbare hmode
    rw [address_of_width settings hwidth] at h
    obtain ⟨q, hq, rfl⟩ := Option.map_eq_some_iff.1 h
    obtain ⟨hliteral, hcount, hbytes⟩ := bytes_of_literal hq
    refine ⟨trivial, hcount, ?_, hbytes⟩
    rw [hwidth] at hbyte
    rw [EffectiveAddress.modeByte_offset, hliteral, Base.field_ofField]
    cases width <;> exact hbyte

/-! ### Opcode bytes -/

theorem moveOpcode_nibble (d : BitVec 1) (w : Width) : moveOpcode d w >>> 4 = 8 := by
  revert d
  cases w <;> decide

theorem width_moveOpcode (d : BitVec 1) (w : Width) : width (moveOpcode d w) = w := by
  revert d
  cases w <;> decide

theorem moveOpcode_direction (d : BitVec 1) (w : Width) : moveOpcode d w &&& 2 = 2 ↔ d = 1 := by
  revert d
  cases w <;> decide

theorem literalOpcode_nibble (r : Register) : literalOpcode r >>> 4 = 11 := by
  obtain ⟨width, index⟩ := r
  revert index
  cases width <;> decide

theorem literalWidth_literalOpcode (r : Register) : literalWidth (literalOpcode r) = r.width := by
  obtain ⟨width, index⟩ := r
  revert index
  cases width <;> decide

theorem literalOpcode_register (r : Register) :
    BitVec.ofNat 3 (literalOpcode r &&& 7).toNat = r.index := by
  obtain ⟨width, index⟩ := r
  revert index
  cases width <;> decide

theorem location_modeByte (settings : Settings.Decoder) (w : Width) (register operand : BitVec 3)
    (rest : List UInt8) :
    location settings w (modeByte 3 register operand) rest =
      some (.register ⟨w, operand⟩, 0) := by
  have hmode : modeByte 3 register operand >>> 6 = 3 := modeByte_mode 3 register operand
  rw [location, if_pos hmode, modeByte_operand, field_ofNat]

theorem register_modeByte (a : EffectiveAddress) (register : BitVec 3) :
    BitVec.ofNat 3 ((a.modeByte register >>> 3) &&& 7).toNat = register := by
  rcases a with base | ⟨base, _ | _⟩ | _ <;> exact modeByte_register _ _ _

theorem location_memory {settings : Settings.Decoder} {a : EffectiveAddress}
    (h : a.IsEncodable settings) (w : Width) (register : BitVec 3) (rest : List UInt8) :
    location settings w (a.modeByte register) (a.bytes ++ rest) =
      some (.memory a, (Operand.memory a).byteCount) := by
  have hmode : a.modeByte register >>> 6 ≠ 3 := by
    rcases a with base | ⟨base, _ | _⟩ | _ <;>
      · rw [EffectiveAddress.modeByte, modeByte_mode]
        decide
  rw [location, if_neg hmode, address_modeByte h]
  rfl

theorem operands_moveOpcode_one (w : Width) (m : UInt8) (o : Operand) :
    operands (moveOpcode 1 w) m o = ⟨.register ⟨w, .ofNat 3 ((m >>> 3) &&& 7).toNat⟩, o⟩ := by
  rw [operands, width_moveOpcode]
  exact if_pos ((moveOpcode_direction 1 w).2 rfl)

theorem operands_moveOpcode_zero (w : Width) (m : UInt8) (o : Operand) :
    operands (moveOpcode 0 w) m o = ⟨o, .register ⟨w, .ofNat 3 ((m >>> 3) &&& 7).toNat⟩⟩ := by
  rw [operands, width_moveOpcode]
  exact if_neg (mt (moveOpcode_direction 0 w).1 (by decide))

theorem outcome_moveOpcode (settings : Settings.Decoder) (d : BitVec 1) (w : Width) (m : UInt8)
    {rest : List UInt8} {p : Operand × Nat} (h : location settings w m rest = some p) :
    outcome settings (moveOpcode d w :: m :: rest) =
      .ok ⟨.moveRegisterMemory, operands (moveOpcode d w) m p.1, 2 + p.2⟩ := by
  rw [← width_moveOpcode d w] at h
  rw [outcome, if_pos (moveOpcode_nibble d w), registerMemory, h]

/-- The two ways in which bytes decode to a move. -/
theorem outcome_eq_ok {settings : Settings.Decoder} {bytes : List UInt8} {move : Move}
    (h : outcome settings bytes = .ok move) :
    (∃ b m rest p, bytes = b :: m :: rest ∧ b >>> 4 = 8 ∧
        location settings (width b) m rest = some p ∧
        move = ⟨.moveRegisterMemory, operands b m p.1, 2 + p.2⟩) ∨
      ∃ b rest p, bytes = b :: rest ∧ b >>> 4 = 11 ∧
        literal (literalWidth b) rest = some p ∧
        move = ⟨.moveImmediateRegister, literalOperands b p.1, 1 + p.2⟩ := by
  rcases bytes with _ | ⟨b, rest⟩
  · cases h
  rw [outcome] at h
  by_cases h8 : b >>> 4 = 8
  · rw [if_pos h8] at h
    rcases rest with _ | ⟨m, rest⟩
    · cases h
    cases hlocation : location settings (width b) m rest with
    | none =>
      rw [registerMemory, hlocation] at h
      simp at h
    | some p =>
      rw [registerMemory, hlocation] at h
      cases h
      exact .inl ⟨b, m, rest, p, rfl, h8, hlocation, rfl⟩
  by_cases h11 : b >>> 4 = 11
  · rw [if_neg h8, if_pos h11, immediateRegister] at h
    cases hliteral : literal (literalWidth b) rest with
    | none =>
      rw [hliteral] at h
      simp at h
    | some p =>
      rw [hliteral] at h
      cases h
      exact .inr ⟨b, rest, p, rfl, h11, hliteral, rfl⟩
  · rw [if_neg h8, if_neg h11] at h
    split at h
    · rename_i hgroup
      rcases rest with _ | ⟨m, rest⟩
      · cases h
      · rw [group] at h
        split at h <;> cases h
    · split at h
      · simp at h
      · split at h <;> cases h

end ByteString

namespace Move

open ByteString

variable {settings : Settings.Decoder}

/-- The encoding of a move decodes to the move, whatever follows it. -/
theorem outcome_encode {move : Move} (h : move.WellFormed settings) (rest : List UInt8) :
    outcome settings (move.encode ++ rest) = .ok move := by
  cases h with
  | literal r i hwidth =>
    have hliteral := literal_bytes i rest
    rw [hwidth, ← literalWidth_literalOpcode] at hliteral
    have hregister : (⟨literalWidth (literalOpcode r),
        .ofNat 3 (literalOpcode r &&& 7).toNat⟩ : Register) = r := by
      rw [literalWidth_literalOpcode, literalOpcode_register]
    change outcome settings (literalOpcode r :: (i.bytes ++ rest)) = _
    rw [outcome, if_neg (by rw [literalOpcode_nibble]; decide), if_pos (literalOpcode_nibble r),
      immediateRegister, hliteral]
    simp only [literalOperands, hregister]
  | registers r s hwidth =>
    obtain ⟨w, j⟩ := s
    cases hwidth
    change outcome settings (moveOpcode 0 r.width :: modeByte 3 j r.index :: rest) = _
    rw [outcome_moveOpcode settings 0 _ _ (location_modeByte settings _ _ _ rest),
      operands_moveOpcode_zero, modeByte_register]
    rfl
  | load r a hencodable =>
    change outcome settings
      (moveOpcode 1 r.width :: a.modeByte r.index :: (a.bytes ++ rest)) = _
    rw [outcome_moveOpcode settings 1 _ _ (location_memory hencodable _ _ rest),
      operands_moveOpcode_one, register_modeByte]
  | store r a hencodable =>
    change outcome settings
      (moveOpcode 0 r.width :: a.modeByte r.index :: (a.bytes ++ rest)) = _
    rw [outcome_moveOpcode settings 0 _ _ (location_memory hencodable _ _ rest),
      operands_moveOpcode_zero, register_modeByte]

/-- A move that bytes decode to has one of the shapes of decoded moves. -/
theorem wellFormed_of_outcome {bytes : List UInt8} {move : Move}
    (h : outcome settings bytes = .ok move) : move.WellFormed settings := by
  rcases outcome_eq_ok h with ⟨b, m, rest, p, rfl, -, hlocation, rfl⟩ |
    ⟨b, rest, p, rfl, -, hliteral, rfl⟩
  · rw [location] at hlocation
    by_cases hmode : m >>> 6 = 3
    · rw [if_pos hmode] at hlocation
      cases hlocation
      rw [ByteString.operands]
      dsimp only
      split
      · exact .registers _ _ rfl
      · exact .registers _ _ rfl
    · rw [if_neg hmode] at hlocation
      obtain ⟨q, hq, rfl⟩ := Option.map_eq_some_iff.1 hlocation
      obtain ⟨hencodable, hcount, -, -⟩ := of_address hmode hq
      rw [ByteString.operands]
      dsimp only
      rw [hcount]
      split
      · exact .load _ _ hencodable
      · exact .store _ _ hencodable
  · obtain ⟨hwidth, hcount, -⟩ := bytes_of_literal hliteral
    rw [hcount]
    exact .literal _ _ hwidth

theorem WellFormed.isEncodable {move : Move} (h : move.WellFormed settings) {a : EffectiveAddress}
    (ha : move.operands.destination = .memory a ∨ move.operands.source = .memory a) :
    a.IsEncodable settings := by
  cases h with
  | literal r i width => simp at ha
  | registers r s width => simp at ha
  | load r b encodable =>
    obtain rfl : b = a := by simpa using ha
    exact encodable
  | store r b encodable =>
    obtain rfl : b = a := by simpa using ha
    exact encodable

/-- The encoding of a move has its size. -/
theorem length_encode {move : Move} (h : move.WellFormed settings) :
    move.encode.length = move.size := by
  cases h with
  | literal r i hwidth =>
    rw [encode, List.length_cons, Immediate.length_bytes]
    exact Nat.add_comm _ _
  | registers r s hwidth => rfl
  | load r a hencodable =>
    rw [encode, List.length_cons, List.length_cons, EffectiveAddress.length_bytes]
    exact Nat.add_comm _ 2
  | store r a hencodable =>
    rw [encode, List.length_cons, List.length_cons, EffectiveAddress.length_bytes]
    exact Nat.add_comm _ 2

/-- Where encodings begin the same bytes, the moves are the same. -/
theorem encode_prefix_free {move other : Move} (h : move.WellFormed settings)
    (hother : other.WellFormed settings) {rest back : List UInt8}
    (heq : move.encode ++ rest = other.encode ++ back) : move = other ∧ rest = back := by
  have hmove := outcome_encode h rest
  rw [heq, outcome_encode hother back] at hmove
  cases hmove
  exact ⟨rfl, List.append_cancel_left heq⟩

/-- Encodings one behind the other determine the moves. -/
theorem flatMap_encode_injective {moves others : List Move}
    (h : ∀ move ∈ moves, move.WellFormed settings)
    (hothers : ∀ other ∈ others, other.WellFormed settings)
    (heq : moves.flatMap encode = others.flatMap encode) : moves = others := by
  have hpos : ∀ {move : Move} {rest : List UInt8}, move.WellFormed settings →
      move.encode ++ rest ≠ [] := by
    intro move rest hmove hnil
    have houtcome := outcome_encode hmove rest
    rw [hnil] at houtcome
    cases houtcome
  induction moves generalizing others with
  | nil =>
    rcases others with _ | ⟨other, others⟩
    · rfl
    · exact absurd heq.symm (hpos (hothers other List.mem_cons_self))
  | cons move moves ih =>
    have hmove := h move List.mem_cons_self
    rcases others with _ | ⟨other, others⟩
    · exact absurd heq (hpos hmove)
    · rw [List.flatMap_cons, List.flatMap_cons] at heq
      obtain ⟨rfl, hrest⟩ := encode_prefix_free hmove (hothers other List.mem_cons_self) heq
      exact congrArg (move :: ·) (ih (fun m hm => h m (List.mem_cons_of_mem _ hm))
        (fun m hm => hothers m (List.mem_cons_of_mem _ hm)) hrest)

end Move

end MachineCode
