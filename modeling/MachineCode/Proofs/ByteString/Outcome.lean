import MachineCode.Proofs.BitString.Truncation
import MachineCode.Proofs.ByteString.Fields

/-!
# Decoding whole bytes

The bits of some bytes have the outcome that the bytes have: the fields that are asked for one after
another fit together to whole bytes on every path, and where a field is missing, it is the first one
of a missing byte. A decoder that stands on the first bit of a byte therefore decodes bytes. An
instruction that stands elsewhere is made of bytes as well, where its size is known.

## Main results

* `Scan.outcome_flatMap_byteBits` : the bits of some bytes decode to what the bytes decode to.
* `Decoder.instructionAt_byte` : so does a decoder that stands on the first bit of a byte.
* `Scan.exists_bytes_of_size?` : an instruction of a known size is made of bytes.
-/

namespace MachineCode

namespace Scan

open Image

/-- The size of an instruction is counted in the bytes that have been passed: those at the front and
those that belong to what is found behind them. -/
theorem outcome_of_resume {α : Type} {settings : Settings.Decoder} {front rest : List UInt8}
    (found : Option (α × Nat)) (f : α → Finding) (hle : ∀ p, found = some p → p.2 ≤ rest.length)
    (h : instruction settings ((front ++ rest).flatMap byteBits) =
      resume rest (found.map fun p => (f p.1, p.2))) :
    outcome settings ((front ++ rest).flatMap byteBits) =
      found.elim (.error (.truncated 8 0)) fun p => (f p.1).outcome (front.length + p.2) := by
  rw [outcome, h]
  cases found with
  | none => rfl
  | some p =>
    have hcount := hle p rfl
    have hsize : (((front ++ rest).flatMap byteBits).length -
        ((rest.drop p.2).flatMap byteBits).length) / 8 = front.length + p.2 := by
      rw [length_flatMap_byteBits, length_flatMap_byteBits, List.length_drop, List.length_append]
      omega
    simp only [resume, Option.map_some, hsize, Option.elim]

theorem outcome_of_error {settings : Settings.Decoder} {bits : List Bool} {shortage : Shortage}
    (h : instruction settings bits = .error shortage) :
    outcome settings bits = .error shortage.cause := by
  rw [outcome, h]

theorem instruction_of_classify {settings : Settings.Decoder} {bits rest : List Bool}
    {opcode : Opcode.Classification} (h : classify Opcode.standard bits = .ok (opcode, rest)) :
    instruction settings bits = fields settings opcode rest :=
  Decoder.bind_of_ok h

/-- The bits of a move between registers and memory decode to what its bytes decode to. -/
theorem outcome_registerMemory (settings : Settings.Decoder) {b : UInt8} (h : b >>> 4 = 8)
    (rest : List UInt8) :
    outcome settings ((b :: rest).flatMap byteBits) =
      ByteString.registerMemory settings b rest := by
  have hclassify : classify Opcode.standard ((b :: rest).flatMap byteBits) =
      .ok (⟨.moveRegisterMemory, 6, 8#4 ++ BitVec.ofNat 2 (b.toNat >>> (8 - 4 - 2))⟩,
        insideByte b 6 rest) := by
    rw [classify_cons, ← (nibble_eq_iff b 8).2 h, classifyNibble_eight]
    exact Decoder.bind_of_ok (take_insideByte b (by omega) rest)
  have hfields : instruction settings ((b :: rest).flatMap byteBits) =
      (registerMemoryOperands settings (insideByte b 6 rest)).bind fun p =>
        .ok (.move .moveRegisterMemory p.1, p.2) :=
    instruction_of_classify hclassify
  rcases rest with _ | ⟨m, rest⟩
  · have herror : registerMemoryOperands settings (insideByte b 6 []) =
        .error ⟨2, 0, by omega⟩ := by
      rw [registerMemoryOperands, Decoder.bind_of_ok (flag_insideByte b (by omega) _),
        Decoder.bind_of_ok (flag_insideByte b (by omega) _), insideByte_eight, List.flatMap_nil]
      exact Decoder.bind_of_error (take_nil (by omega))
    rw [herror] at hfields
    exact outcome_of_error hfields
  · have hresume : instruction settings (([b, m] ++ rest).flatMap byteBits) =
        resume rest ((ByteString.location settings (ByteString.width b) m rest).map fun p =>
          (.move .moveRegisterMemory (ByteString.operands b m p.1), p.2)) := by
      refine hfields.trans ?_
      rw [registerMemoryOperands_insideByte]
      cases ByteString.location settings (ByteString.width b) m rest <;> rfl
    refine (outcome_of_resume _ (fun o => .move .moveRegisterMemory (ByteString.operands b m o))
      (fun p hp => ByteString.le_of_location hp) hresume).trans ?_
    rw [ByteString.registerMemory]
    cases ByteString.location settings (ByteString.width b) m rest <;> rfl

/-- The bits of a move of a literal decode to what its bytes decode to. -/
theorem outcome_immediateRegister (settings : Settings.Decoder) {b : UInt8} (h : b >>> 4 = 11)
    (rest : List UInt8) :
    outcome settings ((b :: rest).flatMap byteBits) = ByteString.immediateRegister b rest := by
  have hrow : classifyNibble 11 Opcode.standard =
      pure ⟨.moveImmediateRegister, 4, 11⟩ := rfl
  have hclassify : classify Opcode.standard ((b :: rest).flatMap byteBits) =
      .ok (⟨.moveImmediateRegister, 4, 11⟩, insideByte b 4 rest) := by
    rw [classify_cons, ← (nibble_eq_iff b 11).2 h, hrow]
    rfl
  have hfields : instruction settings ((b :: rest).flatMap byteBits) =
      (immediateRegisterOperands (insideByte b 4 rest)).bind fun p =>
        .ok (.move .moveImmediateRegister p.1, p.2) :=
    instruction_of_classify hclassify
  have hresume : instruction settings (([b] ++ rest).flatMap byteBits) =
      resume rest ((ByteString.literal (ByteString.literalWidth b) rest).map fun p =>
        (.move .moveImmediateRegister (ByteString.literalOperands b p.1), p.2)) := by
    refine hfields.trans ?_
    rw [immediateRegisterOperands_insideByte]
    cases ByteString.literal (ByteString.literalWidth b) rest <;> rfl
  refine (outcome_of_resume _
    (fun i => .move .moveImmediateRegister (ByteString.literalOperands b i))
    (fun p hp => ByteString.le_of_literal hp) hresume).trans ?_
  rw [ByteString.immediateRegister]
  cases ByteString.literal (ByteString.literalWidth b) rest <;> rfl

/-- The bits of a member of the group decode to what its bytes decode to. -/
theorem outcome_group (settings : Settings.Decoder) (rest : List UInt8) :
    outcome settings ((0xFF :: rest).flatMap byteBits) = ByteString.group settings rest := by
  have hclassify : classify Opcode.standard ((0xFF :: rest).flatMap byteBits) =
      .ok (⟨.registerMemoryGroup, 8, 15#4 ++ 15#4⟩, rest.flatMap byteBits) := by
    rw [classify_fifteen rfl, if_pos rfl]
  have hfields : instruction settings ((0xFF :: rest).flatMap byteBits) =
      (groupLayout settings (rest.flatMap byteBits)).bind fun p =>
        .ok (.layout .registerMemoryGroup, p.2) :=
    instruction_of_classify hclassify
  rcases rest with _ | ⟨m, rest⟩
  · have herror : groupLayout settings [] = .error ⟨2, 0, by omega⟩ :=
      Decoder.bind_of_error (take_nil (by omega))
    rw [List.flatMap_nil, herror] at hfields
    exact outcome_of_error hfields
  · have hresume : instruction settings (([0xFF, m] ++ rest).flatMap byteBits) =
        resume rest ((ByteString.location settings .word m rest).map fun p =>
          (.layout .registerMemoryGroup, p.2)) := by
      refine hfields.trans ?_
      rw [groupLayout_cons]
      cases ByteString.location settings .word m rest <;> rfl
    refine (outcome_of_resume _ (fun _ => .layout .registerMemoryGroup)
      (fun p hp => ByteString.le_of_location hp) hresume).trans ?_
    rw [ByteString.group]
    cases ByteString.location settings .word m rest <;> rfl

theorem outcome_of_pure {settings : Settings.Decoder} {bits rest : List Bool}
    {opcode : Opcode.Classification} {finding : Finding}
    (hclassify : classify Opcode.standard bits = .ok (opcode, rest))
    (hfields : fields settings opcode = pure finding) :
    outcome settings bits = finding.outcome ((bits.length - rest.length) / 8) := by
  rw [outcome, instruction_of_classify hclassify, hfields]
  rfl

/-- The leading four bits of the families that are known but have no layout decide alone. -/
theorem outcome_reserved (settings : Settings.Decoder) {b : UInt8} (n : BitVec 4)
    (operation : Operation) (h : b >>> 4 = .ofNat n.toNat)
    (hrow : classifyNibble n Opcode.standard = pure ⟨operation, 4, n⟩)
    (hfields : fields settings ⟨operation, 4, n⟩ = pure (.reserved operation))
    (rest : List UInt8) :
    outcome settings ((b :: rest).flatMap byteBits) = .error (.unimplemented operation none) := by
  have hclassify : classify Opcode.standard ((b :: rest).flatMap byteBits) =
      .ok (⟨operation, 4, n⟩, insideByte b 4 rest) := by
    rw [classify_cons, ← (nibble_eq_iff b n).2 h, hrow]
    rfl
  exact outcome_of_pure hclassify hfields

/-- So do those of no known family. -/
theorem outcome_unrecognized (settings : Settings.Decoder) {b : UInt8} (h8 : b >>> 4 ≠ 8)
    (h11 : b >>> 4 ≠ 11) (hgroup : b ≠ 0xFF) (h12 : b >>> 4 ≠ 12) (h10 : b >>> 4 ≠ 10)
    (rest : List UInt8) :
    outcome settings ((b :: rest).flatMap byteBits) =
      .error (.unknownOpcode (b >>> 4).toNat 4) := by
  have hclassify : ∃ n : BitVec 4, n.toNat = (b >>> 4).toNat ∧
      classify Opcode.standard ((b :: rest).flatMap byteBits) =
        .ok (⟨.unrecognized, 4, n⟩, insideByte b 4 rest) := by
    by_cases h15 : b >>> 4 = 15
    · refine ⟨15, by rw [h15]; rfl, ?_⟩
      rw [classify_fifteen h15, if_neg hgroup]
    · refine ⟨.ofNat 4 (b.toNat >>> 4), toNat_nibble b, ?_⟩
      rw [classify_cons, classifyNibble_standard_of_ne (mt (nibble_eq_iff b 8).1 h8)
        (mt (nibble_eq_iff b 11).1 h11) (mt (nibble_eq_iff b 12).1 h12)
        (mt (nibble_eq_iff b 10).1 h10) (mt (nibble_eq_iff b 15).1 h15)]
      rfl
  obtain ⟨n, hn, hclassify⟩ := hclassify
  rw [← hn]
  exact outcome_of_pure hclassify rfl

/-- The bits of some bytes decode to what the bytes decode to. -/
theorem outcome_flatMap_byteBits (settings : Settings.Decoder) (bytes : List UInt8) :
    outcome settings (bytes.flatMap byteBits) = ByteString.outcome settings bytes := by
  rcases bytes with _ | ⟨b, rest⟩
  · exact outcome_of_error (Decoder.bind_of_error (Decoder.bind_of_error (take_nil (by omega))))
  · rw [ByteString.outcome]
    by_cases h8 : b >>> 4 = 8
    · rw [if_pos h8, outcome_registerMemory settings h8]
    by_cases h11 : b >>> 4 = 11
    · rw [if_neg h8, if_pos h11, outcome_immediateRegister settings h11]
    by_cases hgroup : b = 0xFF
    · rw [if_neg h8, if_neg h11, if_pos hgroup, hgroup, outcome_group]
    by_cases h12 : b >>> 4 = 12
    · rw [if_neg h8, if_neg h11, if_neg hgroup, if_pos h12,
        outcome_reserved settings 12 .moveImmediateMemory h12 rfl rfl]
    by_cases h10 : b >>> 4 = 10
    · rw [if_neg h8, if_neg h11, if_neg hgroup, if_neg h12, if_pos h10,
        outcome_reserved settings 10 .moveAccumulator h10 rfl rfl]
    · rw [if_neg h8, if_neg h11, if_neg hgroup, if_neg h12, if_neg h10,
        outcome_unrecognized settings h8 h11 hgroup h12 h10]

theorem outcome_flatMap_append {settings : Settings.Decoder} {bytes : List UInt8} {size : Int}
    (h : (ByteString.outcome settings bytes).size? = some size) (more : List Bool) :
    outcome settings (bytes.flatMap byteBits ++ more) = ByteString.outcome settings bytes := by
  rw [← outcome_flatMap_byteBits] at h ⊢
  exact outcome_append (Outcome.ne_truncated_of_size? h) more

/-- An instruction of a known size is made of bytes, whatever stands behind them. -/
theorem exists_bytes_of_size? {settings : Settings.Decoder} {bits : List Bool} {size : Nat}
    (h : (outcome settings bits).size? = some (size : Int)) :
    ∃ bytes more, bits = bytes.flatMap byteBits ++ more ∧
      ByteString.outcome settings bytes = outcome settings bits := by
  obtain ⟨hle, -⟩ := exists_finding_of_size? h
  have hlength : (bits.take (8 * size)).length = 8 * size := List.length_take_of_le hle
  obtain ⟨bytes, hbytes⟩ := exists_flatMap_byteBits hlength
  refine ⟨bytes, bits.drop (8 * size), ?_, ?_⟩
  · rw [hbytes, List.take_append_drop]
  · rw [← outcome_flatMap_byteBits, hbytes, outcome_take_of_size? h]

end Scan

/-! ### Readers on a byte -/

namespace BitReader

variable {image : Image}

theorem atByte?_zero {start : Nat} (h : start ≤ image.size) :
    ∃ reader, atByte? image start 0 = some reader ∧ reader.position = 8 * start := by
  have hle : 8 * start + 0 ≤ image.bitSize := by
    rw [Image.bitSize]
    omega
  exact ⟨_, atByte?_eq_some (by omega) hle, rfl⟩

theorem bits_of_position {reader : BitReader image} {start : Nat}
    (h : reader.position = 8 * start) :
    reader.bits = (image.toList.drop start).flatMap Image.byteBits := by
  rw [bits, h, Image.bits, Image.drop_flatMap_byteBits]

theorem byteIndex_of_position {reader : BitReader image} {start : Nat}
    (h : reader.position = 8 * start) : reader.byteIndex = start := by
  rw [byteIndex, h]
  omega

theorem bitOffset_of_position {reader : BitReader image} {start : Nat}
    (h : reader.position = 8 * start) : reader.bitOffset = 0 := by
  rw [bitOffset, h]
  omega

theorem position_of_bitOffset {reader : BitReader image} (h : reader.bitOffset = 0) :
    reader.position = 8 * reader.byteIndex := by
  rw [bitOffset] at h
  rw [byteIndex]
  omega

end BitReader

namespace Decoder

variable {image : Image}

/-- A reader on the first bit of a byte decodes the bytes from there on: to an instruction that
makes the move, and a reader behind its bytes, or to the fault of the cause. -/
theorem instructionAt_of_position (settings : Settings.Decoder) (address : Nat)
    {reader : BitReader image} {start : Nat} (h : reader.position = 8 * start) :
    match ByteString.outcome settings (image.toList.drop start) with
    | .ok move => ∃ i next, instructionAt settings address reader = .ok (i, next) ∧
        i.address = address ∧ i.move = move ∧ next.position = 8 * (start + move.size)
    | .error cause => instructionAt settings address reader =
        .error (.decode (.ofCause image.size start cause)) := by
  have hbytes := Scan.outcome_flatMap_byteBits settings (image.toList.drop start)
  rw [← BitReader.bits_of_position h] at hbytes
  rw [instructionAt_natCast]
  split
  · rename_i move hmove
    obtain ⟨i, next, hdecode, haddress, hi, hnext⟩ :=
      instruction_of_outcome address (hbytes.trans hmove)
    exact ⟨i, next, hdecode, haddress, hi, by omega⟩
  · rename_i cause hcause
    rw [instruction_of_cause address (hbytes.trans hcause), BitReader.byteIndex_of_position h]

/-- Bytes that decode to a move give an instruction that makes it. -/
theorem instructionAt_start {settings : Settings.Decoder} {move : Move} (address : Nat)
    (h : ByteString.outcome settings image.toList = .ok move) :
    ∃ i next, instructionAt settings address (BitReader.start image) = .ok (i, next) ∧
      i.address = address ∧ i.move = move ∧ next.position = 8 * move.size := by
  have hdecode := instructionAt_of_position settings address
    (show (BitReader.start image).position = 8 * 0 from rfl)
  rw [List.drop_zero, h] at hdecode
  simpa only [Nat.zero_add] using hdecode

theorem instructionAt_start_of_move {settings : Settings.Decoder} {i : Instruction}
    (h : ByteString.outcome settings image.toList = .ok i.move) :
    ∃ next, instructionAt settings i.address (BitReader.start image) = .ok (i, next) ∧
      next.position = 8 * i.size := by
  obtain ⟨j, next, hdecode, haddress, hmove, hnext⟩ := instructionAt_start i.address h
  rw [Instruction.eq_of_move haddress hmove] at hdecode
  exact ⟨next, hdecode, hnext⟩

/-- Every byte of an image, and its end, is a place to decode from, and what is found there is what
the bytes from there on decode to. -/
theorem instructionAt_byte (settings : Settings.Decoder) (image : Image) (address : Nat)
    {start : Nat} (h : start ≤ image.size) :
    ∃ reader : BitReader image, BitReader.atByte? image start 0 = some reader ∧
      match ByteString.outcome settings (image.toList.drop start) with
      | .ok move => ∃ i next, instructionAt settings address reader = .ok (i, next) ∧
          i.address = address ∧ i.move = move ∧ next.byteIndex = start + move.size ∧
          next.bitOffset = 0
      | .error cause => instructionAt settings address reader =
          .error (.decode (.ofCause image.size start cause)) := by
  obtain ⟨reader, hreader, hposition⟩ := BitReader.atByte?_zero h
  have houtcome := instructionAt_of_position settings address hposition
  refine ⟨reader, hreader, ?_⟩
  split at houtcome
  · obtain ⟨i, next, hdecode, haddress, hi, hnext⟩ := houtcome
    exact ⟨i, next, hdecode, haddress, hi, BitReader.byteIndex_of_position hnext,
      BitReader.bitOffset_of_position hnext⟩
  · exact houtcome

/-- The load of a word register from `bx + si + 5`, behind one byte that is not decoded. -/
theorem instructionAt_byte_load :
    1 ≤ (#[0x00, 0x8B, 0x40, 0x05] : Image).size ∧
      ∃ reader : BitReader #[0x00, 0x8B, 0x40, 0x05],
        BitReader.atByte? #[0x00, 0x8B, 0x40, 0x05] 1 0 = some reader ∧
        ∃ i next, Decoder.instructionAt {} 256 reader = .ok (i, next) ∧ i.address = 256 ∧
          i.move = ⟨.moveRegisterMemory,
            ⟨.register ⟨.word, 0⟩, .memory (.offset .bxSi (.byte 5))⟩, 3⟩ ∧
          next.byteIndex = 4 ∧ next.bitOffset = 0 :=
  ⟨by decide, instructionAt_byte {} #[0x00, 0x8B, 0x40, 0x05] 256 (by decide)⟩

end Decoder

end MachineCode
