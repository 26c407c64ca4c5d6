import MachineCode.Proofs.BitString.Extent

/-!
# Outcomes of decoding

What an instruction decoder finds at a position depends on nothing but the bits that are left there.
This file computes the outcome from a string of bits and shows that the decoder has it: the same
move, or the same cause for which there is none.

## Main definitions

* `Move` : a decoded instruction without its address.
* `Scan.outcome` : what a string of bits decodes to.
* `Decoder.HasOutcome` : a decoder at a position has an outcome.

## Main results

* `Scan.size_of_outcome`, `Scan.explains_of_outcome` : a move takes up two to four whole bytes, and
  so does an instruction that is only laid out.
* `Decoder.instruction_of_outcome`, `Decoder.instruction_of_cause` : the decoder has the outcome of
  the bits that are left.
-/

namespace MachineCode

/-- What the fields at a position say, before the size of the instruction is known. -/
inductive Finding where
  /-- A move of a decoded family. -/
  | move (operation : Operation) (operands : Operands)
  /-- A member of a family of which only the layout is known. -/
  | layout (operation : Operation)
  /-- A member of a family of which nothing else is known. -/
  | reserved (operation : Operation)
  /-- An opcode of no known family. -/
  | unknown (opcode : Opcode.Classification)

/-- A decoded instruction without its address. -/
structure Move where
  operation : Operation
  operands : Operands
  size : Nat
  deriving DecidableEq, Repr

/-- The move that an instruction makes. -/
def Instruction.move (instruction : Instruction) : Move :=
  ⟨instruction.operation, ⟨instruction.destination, instruction.source⟩, instruction.size⟩

theorem Instruction.eq_of_move {i j : Instruction} (haddress : i.address = j.address)
    (hmove : i.move = j.move) : i = j := by
  obtain ⟨address, size, operation, destination, source, _, _, _⟩ := i
  cases haddress
  cases hmove
  rfl

/-- Bits decode to a move, or there is a cause for which they do not. -/
abbrev Outcome := Except Fault.Cause Move

/-- The outcome that the fields of `size` bytes lead to. -/
def Finding.outcome (size : Nat) : Finding → Outcome
  | .move operation operands => .ok ⟨operation, operands, size⟩
  | .layout operation => .error (.unimplemented operation (some size))
  | .reserved operation => .error (.unimplemented operation none)
  | .unknown opcode => .error (.unknownOpcode opcode.bits.toNat opcode.width)

/-- A finding of the decoded families takes up the bits of a whole number of bytes, two to four. -/
def Finding.TakesUp (count : Nat) : Finding → Prop
  | .move operation _ =>
    operation.isDecodable = true ∧ ∃ size, count = 8 * size ∧ 2 ≤ size ∧ size ≤ 4
  | .layout _ => ∃ size, count = 8 * size ∧ 2 ≤ size ∧ size ≤ 4
  | .reserved _ => True
  | .unknown opcode => opcode.width = 4

namespace Scan

/-- The fields behind an opcode. -/
def fields (settings : Settings.Decoder) (opcode : Opcode.Classification) : Scan Finding :=
  match opcode.operation with
  | .moveRegisterMemory => return .move opcode.operation (← registerMemoryOperands settings)
  | .moveImmediateRegister => return .move opcode.operation (← immediateRegisterOperands)
  | .registerMemoryGroup => do
    groupLayout settings
    return .layout opcode.operation
  | .moveImmediateMemory | .moveAccumulator => return .reserved opcode.operation
  | .unrecognized => return .unknown opcode

/-- The fields of an instruction. -/
def instruction (settings : Settings.Decoder) : Scan Finding := do
  let opcode ← classify Opcode.standard
  fields settings opcode

/-- What a string of bits decodes to. -/
def outcome (settings : Settings.Decoder) (bits : List Bool) : Outcome :=
  match instruction settings bits with
  | .ok (finding, rest) => finding.outcome ((bits.length - rest.length) / 8)
  | .error shortage => .error shortage.cause

theorem yields_fields (settings : Settings.Decoder) (opcode : Opcode.Classification)
    (hopcode : opcode.width = opcode.operation.opcodeWidth) :
    Yields (fields settings opcode) fun finding n => finding.TakesUp (opcode.width + n) := by
  obtain ⟨operation, width, bits⟩ := opcode
  dsimp only at hopcode
  subst hopcode
  cases operation with
  | moveRegisterMemory =>
    refine (yields_registerMemoryOperands settings).bind fun o m hm => yields_pure ?_
    exact ⟨rfl, 2 + o.byteCount, by simp only [Operation.opcodeWidth]; omega, by omega, by omega⟩
  | moveImmediateRegister =>
    refine yields_immediateRegisterOperands.bind fun o m hm => yields_pure ?_
    exact ⟨rfl, 1 + o.byteCount, by simp only [Operation.opcodeWidth]; omega, by omega, by omega⟩
  | registerMemoryGroup =>
    refine (yields_groupLayout settings).bind fun _ m ⟨count, hm, hcount⟩ => yields_pure ?_
    exact ⟨2 + count, by simp only [Operation.opcodeWidth]; omega, by omega, by omega⟩
  | moveImmediateMemory => exact yields_pure trivial
  | moveAccumulator => exact yields_pure trivial
  | unrecognized => exact yields_pure rfl

theorem yields_instruction (settings : Settings.Decoder) :
    Yields (instruction settings) fun finding n => finding.TakesUp n := by
  refine yields_classify_standard.bind fun opcode m ⟨hm, hwidth⟩ => ?_
  subst hm
  exact yields_fields settings opcode hwidth

/-- Why a string of bits does not decode: a field is longer than what is left of the string, the
leading four bits are of no known family, or the family is not decoded, and then a size that is
known lies within the string. -/
def Explains (bits : List Bool) : Fault.Cause → Prop
  | .truncated requested available => 0 ≤ available ∧ available < requested
  | .unknownOpcode _ width => width = 4
  | .unimplemented _ none => True
  | .unimplemented _ (some size) => 2 ≤ size ∧ size ≤ 4 ∧ 8 * size ≤ bits.length
  | .other _ => False

/-- Where bits decode to a move, it takes up whole bytes of them, two to four. -/
theorem size_of_outcome {settings : Settings.Decoder} {bits : List Bool} {move : Move}
    (h : outcome settings bits = .ok move) :
    2 ≤ move.size ∧ move.size ≤ 4 ∧ 8 * move.size ≤ bits.length ∧
      move.operation.isDecodable = true := by
  rw [outcome] at h
  split at h
  · rename_i finding rest hscan
    obtain ⟨count, hle, rfl, htakes⟩ := yields_instruction settings hscan
    cases finding with
    | move operation operands =>
      obtain ⟨hdecodable, size, rfl, hmin, hmax⟩ := htakes
      cases h
      simp only [List.length_drop]
      refine ⟨?_, ?_, ?_, hdecodable⟩ <;> omega
    | layout operation => cases h
    | reserved operation => cases h
    | unknown opcode => cases h
  · simp at h

/-- Where bits do not decode, the cause explains it. -/
theorem explains_of_outcome {settings : Settings.Decoder} {bits : List Bool} {cause : Fault.Cause}
    (h : outcome settings bits = .error cause) : Explains bits cause := by
  rw [outcome] at h
  split at h
  · rename_i finding rest hscan
    obtain ⟨count, hle, rfl, htakes⟩ := yields_instruction settings hscan
    cases finding with
    | move operation operands => cases h
    | layout operation =>
      obtain ⟨size, rfl, hmin, hmax⟩ := htakes
      cases h
      simp only [Explains, List.length_drop]
      omega
    | reserved operation =>
      cases h
      trivial
    | unknown opcode =>
      cases h
      exact htakes
  · rename_i shortage hscan
    cases h
    have := shortage.available_lt
    simp only [Shortage.cause, Explains]
    omega

end Scan

/-! ### Decoders -/

/-- The fault of an instruction that starts at a byte and does not decode. A truncation blames the
end of the image, everything else the byte. -/
def Fault.ofCause (size start : Nat) (cause : Fault.Cause) : Fault where
  offset :=
    match cause with
    | .truncated _ _ => size
    | _ => start
  cause := cause
  starts := [start]

/-- A fault names its places: its message the offset that it blames, and its notes the bytes at
which instructions started, in their order. -/
structure Fault.NamesPlaces (fault : Fault) : Prop where
  message : ∃ n : Nat, fault.offset = n ∧ Names fault.message fault.cause.text n
  notes : List.Forall₂ (Names · "instruction started" ·) fault.notes fault.starts

theorem Fault.namesPlaces_of_offset {fault : Fault} {n : Nat} (h : fault.offset = n) :
    fault.NamesPlaces where
  message := ⟨n, h, names_message h⟩
  notes := by
    rw [notes, List.forall₂_map_left_iff, List.forall₂_same]
    exact fun start _ => names_startText start

theorem Fault.namesPlaces_ofCause (size start : Nat) (cause : Fault.Cause) :
    (ofCause size start cause).NamesPlaces := by
  cases cause with
  | truncated requested available => exact namesPlaces_of_offset (n := size) rfl
  | _ => exact namesPlaces_of_offset (n := start) rfl

namespace Decoder

variable {image : Image}

/-- Makes an outcome of a finding that has been read since `start`. -/
def conclude (start : BitReader image) (address : Nat) : Finding → Decoder image Instruction
  | .move operation operands => assemble start address operation operands
  | .layout operation => do
    let size ← bytesSince start
    refuse start (.unimplemented operation (some size))
  | .reserved operation => refuse start (.unimplemented operation none)
  | .unknown opcode => refuse start (.unknownOpcode opcode.bits.toNat opcode.width)

/-- Behind an opcode, the decoder reads the fields that the scan reads and draws its conclusion. -/
theorem follows_instructionOf (settings : Settings.Decoder) (address : Nat)
    (start : BitReader image) (opcode : Opcode.Classification) :
    ∃ fields : Decoder image Finding, Follows fields (Scan.fields settings opcode) ∧
      instructionOf settings address start opcode = fields >>= conclude start address := by
  obtain ⟨operation, width, bits⟩ := opcode
  cases operation with
  | moveRegisterMemory =>
    refine ⟨_, (follows_registerMemoryOperands settings).bind fun o => follows_pure _, ?_⟩
    rw [bind_assoc]
    rfl
  | moveImmediateRegister =>
    refine ⟨_, follows_immediateRegisterOperands.bind fun o => follows_pure _, ?_⟩
    rw [bind_assoc]
    rfl
  | registerMemoryGroup =>
    refine ⟨_, (follows_groupLayout settings).bind fun _ => follows_pure _, ?_⟩
    rw [bind_assoc]
    rfl
  | moveImmediateMemory => exact ⟨_, follows_pure _, rfl⟩
  | moveAccumulator => exact ⟨_, follows_pure _, rfl⟩
  | unrecognized => exact ⟨_, follows_pure _, rfl⟩

/-- Where the scan of an instruction runs out of bits, the image is truncated. -/
theorem instruction_of_shortage {settings : Settings.Decoder} (address : Nat)
    {reader : BitReader image} {shortage : Shortage}
    (h : Scan.instruction settings reader.bits = .error shortage) :
    instruction settings address reader =
      .error (.decode (.ofCause image.size reader.byteIndex shortage.cause)) := by
  refine instructionStart_eq_error_iff.2
    ⟨.decode { offset := image.size, cause := shortage.cause }, ?_, rfl⟩
  have hclassify : Follows (Opcode.classify Opcode.standard : Decoder image _)
      (Scan.classify Opcode.standard) := Opcode.follows_classify Opcode.standard (by decide)
  refine bind_eq_error_iff.2 (.inr ⟨reader, reader, rfl, bind_eq_error_iff.2 ?_⟩)
  rcases bind_eq_error_iff.1 h with h | ⟨opcode, rest, hopcode, h⟩
  · exact .inl (hclassify.of_error h)
  · obtain ⟨next, hdecoder, rfl⟩ := hclassify.of_ok hopcode
    obtain ⟨fields, hfields, heq⟩ := follows_instructionOf settings address reader opcode
    refine .inr ⟨opcode, next, hdecoder, ?_⟩
    rw [heq]
    exact bind_eq_error_iff.2 (.inl (hfields.of_error h))

/-- Where the scan of an instruction finds something, the decoder concludes from it. -/
theorem instruction_of_finding {settings : Settings.Decoder} (address : Nat)
    {reader : BitReader image} {finding : Finding} {rest : List Bool}
    (h : Scan.instruction settings reader.bits = .ok (finding, rest)) :
    ∃ next : BitReader image, next.bits = rest ∧ instruction settings address reader =
      (conclude reader address finding next).mapError (Error.startedAt reader.byteIndex) := by
  obtain ⟨opcode, middle, hopcode, h⟩ := bind_eq_ok_iff.1 h
  obtain ⟨between, hdecoder, rfl⟩ :=
    (Opcode.follows_classify Opcode.standard (by decide)).of_ok hopcode
  obtain ⟨fields, hfields, heq⟩ := follows_instructionOf settings address reader opcode
  obtain ⟨next, hnext, rfl⟩ := hfields.of_ok h
  refine ⟨next, rfl, congrArg (Except.mapError _) ?_⟩
  rw [bind_apply, get_apply]
  simp only [Except.bind]
  rw [bind_apply, hdecoder]
  simp only [Except.bind]
  rw [heq, bind_apply, hnext]
  rfl

theorem position_of_bits {reader next : BitReader image} {count : Nat}
    (hle : count ≤ reader.bits.length) (h : next.bits = reader.bits.drop count) :
    next.position = reader.position + count := by
  have hlength := congrArg List.length h
  rw [List.length_drop, BitReader.length_bits, BitReader.length_bits] at hlength
  rw [BitReader.length_bits] at hle
  have := reader.position_add_remaining
  have := next.position_add_remaining
  omega

theorem bytesSince_of_position {start reader : BitReader image} {size : Nat} (hpos : 0 < size)
    (h : reader.position = start.position + 8 * size) :
    bytesSince start reader = .ok (size, reader) := by
  refine bytesSince_eq_ok_iff.2 ⟨by omega, by omega, ?_⟩
  rw [show (reader.position - start.position) / 8 = size by omega]

/-- Where the bits that are left decode to a move, the decoder gives the instruction that makes
this move, and moves on by its size. -/
theorem instruction_of_outcome {settings : Settings.Decoder} (address : Nat)
    {reader : BitReader image} {move : Move}
    (h : Scan.outcome settings reader.bits = .ok move) :
    ∃ i next, instruction settings address reader = .ok (i, next) ∧ i.address = address ∧
      i.move = move ∧ next.position = reader.position + 8 * move.size := by
  rw [Scan.outcome] at h
  split at h
  · rename_i finding rest hscan
    obtain ⟨next, hbits, heq⟩ := instruction_of_finding address hscan
    obtain ⟨count, hle, rfl, htakes⟩ := Scan.yields_instruction settings hscan
    have hposition := position_of_bits hle hbits
    cases finding with
    | move operation operands =>
      obtain ⟨hdecodable, size, rfl, hmin, hmax⟩ := htakes
      rw [show (reader.bits.length - (reader.bits.drop (8 * size)).length) / 8 = size by
        rw [List.length_drop]; omega] at h
      cases h
      refine ⟨⟨address, size, operation, operands.destination, operands.source, by omega,
        by omega, hdecodable⟩, next, ?_, rfl, rfl, hposition⟩
      rw [heq]
      simp only [conclude, assemble]
      rw [bind_apply, bytesSince_of_position (by omega) hposition]
      simp only [Except.bind]
      rw [Instruction.ofFields?, dif_pos ⟨by omega, by omega, hdecodable⟩]
      rfl
    | layout operation => cases h
    | reserved operation => cases h
    | unknown opcode => cases h
  · simp at h

/-- Where the bits that are left do not decode, the decoder reports the cause. -/
theorem instruction_of_cause {settings : Settings.Decoder} (address : Nat)
    {reader : BitReader image} {cause : Fault.Cause}
    (h : Scan.outcome settings reader.bits = .error cause) :
    instruction settings address reader =
      .error (.decode (.ofCause image.size reader.byteIndex cause)) := by
  rw [Scan.outcome] at h
  split at h
  · rename_i finding rest hscan
    obtain ⟨next, hbits, heq⟩ := instruction_of_finding address hscan
    obtain ⟨count, hle, rfl, htakes⟩ := Scan.yields_instruction settings hscan
    rw [heq]
    cases finding with
    | move operation operands => cases h
    | layout operation =>
      obtain ⟨size, rfl, hmin, hmax⟩ := htakes
      rw [show (reader.bits.length - (reader.bits.drop (8 * size)).length) / 8 = size by
        rw [List.length_drop]; omega] at h
      cases h
      simp only [conclude]
      rw [bind_apply, bytesSince_of_position (by omega) (position_of_bits hle hbits)]
      rfl
    | reserved operation =>
      cases h
      rfl
    | unknown opcode =>
      cases h
      rfl
  · rename_i shortage hscan
    cases h
    exact instruction_of_shortage address hscan

/-- An address that is not negative is not refused. -/
theorem instructionAt_natCast (settings : Settings.Decoder) (address : Nat)
    (reader : BitReader image) :
    instructionAt settings address reader = instruction settings address reader := by
  rw [instructionAt, bind_apply, Int.toNat_natCast]
  cases instruction settings address reader with
  | error error => rfl
  | ok p =>
    simp only [Except.bind, if_pos (Int.natCast_nonneg address)]
    rfl

/-- A decoded instruction makes the move that the bits that are left decode to. -/
theorem outcome_of_instructionAt {settings : Settings.Decoder} {address : Int}
    {reader next : BitReader image} {i : Instruction}
    (h : instructionAt settings address reader = .ok (i, next)) :
    Scan.outcome settings reader.bits = .ok i.move ∧ (i.address : Int) = address ∧
      next.position = reader.position + 8 * i.size := by
  obtain ⟨j, place, hdecode, h⟩ := bind_eq_ok_iff.1 h
  split at h
  · rename_i hnonneg
    cases h
    cases houtcome : Scan.outcome settings reader.bits with
    | error cause =>
      rw [instruction_of_cause _ houtcome] at hdecode
      simp at hdecode
    | ok move =>
      obtain ⟨k, last, hk, haddress, rfl, hlast⟩ := instruction_of_outcome address.toNat houtcome
      rw [hk] at hdecode
      cases hdecode
      exact ⟨rfl, by omega, hlast⟩
  · cases h

/-- Bits that do not decode are a fault wherever they stand, also in front of an address that would
be refused. -/
theorem instructionAt_of_cause {settings : Settings.Decoder} {address : Int}
    {reader : BitReader image} {cause : Fault.Cause}
    (h : Scan.outcome settings reader.bits = .error cause) :
    instructionAt settings address reader =
      .error (.decode (.ofCause image.size reader.byteIndex cause)) :=
  bind_of_error (instruction_of_cause address.toNat h)

/-- A fault is that of the cause for which the bits that are left do not decode. -/
theorem exists_cause_of_instructionAt {settings : Settings.Decoder} {address : Int}
    {reader : BitReader image} {fault : Fault}
    (h : instructionAt settings address reader = .error (.decode fault)) :
    ∃ cause, Scan.outcome settings reader.bits = .error cause ∧
      fault = .ofCause image.size reader.byteIndex cause := by
  cases houtcome : Scan.outcome settings reader.bits with
  | error cause =>
    rw [instructionAt_of_cause houtcome] at h
    cases h
    exact ⟨cause, rfl, rfl⟩
  | ok move =>
    obtain ⟨i, next, hdecode, -⟩ := instruction_of_outcome address.toNat houtcome
    rw [instructionAt, bind_of_ok hdecode] at h
    split at h <;> cases h

/-- A decoder has an outcome: it gives an instruction that makes the move, and moves on by its size,
or it reports the cause. -/
def HasOutcome (settings : Settings.Decoder) (address : Nat) (reader : BitReader image) :
    Outcome → Prop
  | .ok move => ∃ i next, instructionAt settings address reader = .ok (i, next) ∧
      i.address = address ∧ i.move = move ∧ next.position = reader.position + 8 * move.size
  | .error cause => instructionAt settings address reader =
      .error (.decode (.ofCause image.size reader.byteIndex cause))

theorem hasOutcome_outcome (settings : Settings.Decoder) (address : Nat)
    (reader : BitReader image) :
    HasOutcome settings address reader (Scan.outcome settings reader.bits) := by
  cases houtcome : Scan.outcome settings reader.bits with
  | ok move =>
    rw [HasOutcome, instructionAt_natCast]
    exact instruction_of_outcome address houtcome
  | error cause => exact instructionAt_of_cause houtcome

/-- There is nothing more to a decoder than its outcome. -/
theorem instructionAt_eq_of_hasOutcome {settings others : Settings.Decoder} {address : Nat}
    {reader : BitReader image} {outcome : Outcome} (h : HasOutcome settings address reader outcome)
    (hothers : HasOutcome others address reader outcome) :
    instructionAt settings address reader = instructionAt others address reader := by
  cases outcome with
  | ok move =>
    obtain ⟨i, next, hdecode, haddress, hmove, hnext⟩ := h
    obtain ⟨j, last, hdecode', haddress', hmove', hlast⟩ := hothers
    have hi : i = j :=
      Instruction.eq_of_move (haddress.trans haddress'.symm) (hmove.trans hmove'.symm)
    have hplace : next = last := BitReader.ext (hnext.trans hlast.symm)
    rw [hdecode, hdecode', hi, hplace]
  | error cause => exact Eq.trans h (Eq.symm hothers)

end Decoder

end MachineCode
