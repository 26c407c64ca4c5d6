import MachineCode.Instruction.Decode
import MachineCode.Opcode.Lemmas

/-!
# Progress of decoding

A decoded instruction ends behind its start, and where decoding can resume behind a fault, it
resumes behind the byte at which the faulty instruction starts. Both facts together bound the number
of steps in which an image is decoded.

## Main results

* `Decoder.position_lt_of_instruction` : decoding an instruction moves the position on.
* `Decoder.skip_pos_of_instruction` : so does stepping over an instruction that does not decode.
-/

namespace MachineCode.Decoder

variable {image : Image}

/-! ### The fields behind an opcode -/

theorem onlyTruncates_registerMemoryOperands (settings : Settings.Decoder) :
    OnlyTruncates (registerMemoryOperands settings : Decoder image _) := by
  refine onlyTruncates_flag.bind fun d => onlyTruncates_flag.bind fun w =>
    (onlyTruncates_take 2).bind fun mode => (onlyTruncates_register _).bind fun register =>
      (onlyTruncates_locationOfNumber settings _ _).bind fun location => ?_
  split <;> exact onlyTruncates_pure _

theorem onlyTruncates_immediateRegisterOperands :
    OnlyTruncates (immediateRegisterOperands : Decoder image _) :=
  onlyTruncates_flag.bind fun _ => (onlyTruncates_register _).bind fun _ =>
    (onlyTruncates_immediate _).bind fun _ => onlyTruncates_pure _

theorem onlyTruncates_groupLayout (settings : Settings.Decoder) :
    OnlyTruncates (groupLayout settings : Decoder image _) :=
  (onlyTruncates_take 2).bind fun _ => (onlyTruncates_take 3).bind fun _ =>
    (onlyTruncates_locationOfNumber settings _ .word).bind fun _ => onlyTruncates_pure _

/-! ### Decoded instructions -/

/-- Operands that make an instruction have moved the position on, and assembling does not move it
further. -/
theorem position_lt_of_assemble {start reader next : BitReader image} {address : Nat}
    {operation : Operation}
    {operands : Operands} {instruction : Instruction}
    (h : assemble start address operation operands reader = .ok (instruction, next)) :
    start.position < next.position := by
  obtain ⟨size, reader', hsize, h⟩ := bind_eq_ok_iff.1 h
  obtain ⟨hlt, _, heq⟩ := bytesSince_eq_ok_iff.1 hsize
  cases heq
  cases hfields : Instruction.ofFields? address ((reader.position - start.position) / 8 : Nat)
    operation operands.destination operands.source with
  | some _ =>
    rw [hfields] at h
    cases h
    exact hlt
  | none =>
    rw [hfields] at h
    cases h

theorem position_lt_of_instructionOf {settings : Settings.Decoder} {address : Nat}
    {start reader next : BitReader image} {opcode : Opcode.Classification} {i : Instruction}
    (h : instructionOf settings address start opcode reader = .ok (i, next)) :
    start.position < next.position := by
  obtain ⟨operation, width, bits⟩ := opcode
  cases operation with
  | moveRegisterMemory =>
    obtain ⟨_, _, _, h⟩ := bind_eq_ok_iff.1 h
    exact position_lt_of_assemble h
  | moveImmediateRegister =>
    obtain ⟨_, _, _, h⟩ := bind_eq_ok_iff.1 h
    exact position_lt_of_assemble h
  | registerMemoryGroup =>
    obtain ⟨_, _, _, h⟩ := bind_eq_ok_iff.1 h
    obtain ⟨_, _, _, h⟩ := bind_eq_ok_iff.1 h
    cases h
  | moveImmediateMemory => cases h
  | moveAccumulator => cases h
  | unrecognized => cases h

/-- Decoding an instruction moves the position on. -/
theorem position_lt_of_instruction {settings : Settings.Decoder} {address : Nat}
    {reader next : BitReader image}
    {i : Instruction} (h : instruction settings address reader = .ok (i, next)) :
    reader.position < next.position := by
  obtain ⟨start, reader', hstart, h⟩ := bind_eq_ok_iff.1 (instructionStart_eq_ok_iff.1 h)
  cases hstart
  obtain ⟨opcode, _, _, h⟩ := bind_eq_ok_iff.1 h
  exact position_lt_of_instructionOf h

theorem position_lt_of_instructionAt {settings : Settings.Decoder} {address : Int}
    {reader next : BitReader image}
    {i : Instruction} (h : instructionAt settings address reader = .ok (i, next)) :
    reader.position < next.position := by
  obtain ⟨j, reader', hdecode, h⟩ := bind_eq_ok_iff.1 h
  split at h
  · cases h
    exact position_lt_of_instruction hdecode
  · cases h

/-! ### Faults -/

/-- Whole bytes that have been read are never a fault of the image. -/
theorem bytesSince_ne_fault {start reader : BitReader image} {fault : Fault} :
    bytesSince start reader ≠ .error (.decode fault) := by
  intro h
  rcases bind_eq_error_iff.1 h with h | ⟨_, _, hget, h⟩
  · cases h
  · cases hget
    split at h <;> cases h

theorem require_ne_fault {α : Type} {value? : Option α} {reader : BitReader image}
    {fault : Fault} : require value? reader ≠ .error (.decode fault) := by
  cases value? <;> exact fun h => nomatch h

theorem assemble_ne_fault {start reader : BitReader image} {address : Nat} {operation : Operation}
    {operands : Operands} {fault : Fault} :
    assemble start address operation operands reader ≠ .error (.decode fault) := by
  intro h
  rcases bind_eq_error_iff.1 h with h | ⟨size, _, _, h⟩
  · exact bytesSince_ne_fault h
  · exact require_ne_fault h

theorem skip_pos_of_instructionOf {settings : Settings.Decoder} {address : Nat}
    {start reader : BitReader image}
    {opcode : Opcode.Classification} {fault : Fault} {count : Int}
    (h : instructionOf settings address start opcode reader = .error (.decode fault))
    (hskip : fault.skip? = some count) : 0 < count := by
  obtain ⟨operation, width, bits⟩ := opcode
  cases operation with
  | moveRegisterMemory =>
    rcases bind_eq_error_iff.1 h with h | ⟨_, _, _, h⟩
    · rw [(onlyTruncates_registerMemoryOperands settings).skip?_eq_none h] at hskip
      cases hskip
    · exact absurd h assemble_ne_fault
  | moveImmediateRegister =>
    rcases bind_eq_error_iff.1 h with h | ⟨_, _, _, h⟩
    · rw [onlyTruncates_immediateRegisterOperands.skip?_eq_none h] at hskip
      cases hskip
    · exact absurd h assemble_ne_fault
  | registerMemoryGroup =>
    rcases bind_eq_error_iff.1 h with h | ⟨_, reader', _, h⟩
    · rw [(onlyTruncates_groupLayout settings).skip?_eq_none h] at hskip
      cases hskip
    · rcases bind_eq_error_iff.1 h with h | ⟨size, _, hsize, h⟩
      · exact absurd h bytesSince_ne_fault
      · obtain ⟨hlt, hmod, heq⟩ := bytesSince_eq_ok_iff.1 hsize
        cases heq
        cases h
        cases hskip
        omega
  | moveImmediateMemory =>
    cases h
    cases hskip
    decide
  | moveAccumulator =>
    cases h
    cases hskip
    decide
  | unrecognized =>
    cases h
    cases hskip
    decide

/-- Where decoding can resume behind a fault, it resumes at least one byte further on. -/
theorem skip_pos_of_instruction {settings : Settings.Decoder} {address : Nat}
    {reader : BitReader image}
    {fault : Fault} {count : Int} (h : instruction settings address reader = .error (.decode fault))
    (hskip : fault.skip? = some count) : 0 < count := by
  obtain ⟨error, herror, hstarted⟩ := instructionStart_eq_error_iff.1 h
  cases error with
  | decode cause =>
    cases hstarted
    rw [Fault.skip?_startedAt] at hskip
    rcases bind_eq_error_iff.1 herror with herror | ⟨start, _, hstart, herror⟩
    · cases herror
    · cases hstart
      rcases bind_eq_error_iff.1 herror with herror | ⟨opcode, _, _, herror⟩
      · rw [(Opcode.onlyTruncates_classify _).skip?_eq_none herror] at hskip
        cases hskip
      · exact skip_pos_of_instructionOf herror hskip
  | _ => cases hstarted

theorem skip_pos_of_instructionAt {settings : Settings.Decoder} {address : Int}
    {reader : BitReader image} {fault : Fault} {count : Int}
    (h : instructionAt settings address reader = .error (.decode fault))
    (hskip : fault.skip? = some count) : 0 < count := by
  rcases bind_eq_error_iff.1 h with h | ⟨_, _, _, h⟩
  · exact skip_pos_of_instruction h hskip
  · split at h <;> cases h

end MachineCode.Decoder
