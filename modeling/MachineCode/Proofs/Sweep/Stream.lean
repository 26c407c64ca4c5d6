import MachineCode.Instruction.Stream
import MachineCode.Proofs.Sweep.Policy

/-!
# Streams and sweeps

There are two loops over the instructions of an image. A sweep collects events, records faults and
makes a program of them; a stream passes instructions on as they come and ends with the first error.
Where neither of them steps over faults, they take the same steps: a part of a sweep without
failures is a part of the stream, and both end at the same byte, for the same reason.

## Main definitions

* `InstructionStream.size` : the number of bytes that the instructions of a stream cover.
* `InstructionStream.AgreesWith` : a stream and the results of the sweeps that do not step over
  faults have all in common.

## Main results

* `Program.Advances.ofReader_eq` : a part of a sweep without failures is a part of the stream.
* `Program.Advances.adjacent`, `Program.Advances.offset_add_size` : its instructions cover the bytes
  that it passes.
* `InstructionStream.ofImage_agrees` : the stream of an image agrees with the sweeps over it.
-/

namespace MachineCode

/-! ### Streams -/

namespace InstructionStream

variable {settings : Settings.Decoder} {origin : Int} {image : Image}
  {reader next : BitReader image}

/-- The number of bytes that the instructions of a stream cover. -/
def size (stream : InstructionStream) : Nat :=
  (stream.instructions.map Instruction.size).sum

theorem ofReader_of_atEnd (h : reader.atEnd = true) :
    ofReader settings origin reader = ⟨[], none⟩ := by
  rw [ofReader, if_pos h]

theorem ofReader_of_ok {i : Instruction} (hend : ¬ reader.atEnd = true)
    (h : Decoder.instructionAt settings (origin + reader.byteIndex) reader = .ok (i, next)) :
    ofReader settings origin reader = (ofReader settings origin next).cons i := by
  rw [ofReader, if_neg hend]
  split
  · rename_i heq
    rw [h] at heq
    cases heq
    rfl
  · rename_i heq
    rw [h] at heq
    simp at heq

/-- A stream ends with the error of the first instruction that does not decode. -/
theorem ofReader_of_error {error : Error} (hend : ¬ reader.atEnd = true)
    (h : Decoder.instructionAt settings (origin + reader.byteIndex) reader = .error error) :
    ofReader settings origin reader = ⟨[], some error⟩ := by
  rw [ofReader, if_neg hend]
  split
  · rename_i heq
    rw [h] at heq
    simp at heq
  · rename_i heq
    rw [h] at heq
    cases heq
    rfl

theorem foldr_cons (instructions : List Instruction) (stream : InstructionStream) :
    instructions.foldr cons stream = ⟨instructions ++ stream.instructions, stream.error?⟩ := by
  induction instructions with
  | nil => rfl
  | cons i instructions ih =>
    rw [List.foldr_cons, ih]
    rfl

end InstructionStream

/-! ### Parts of a sweep -/

namespace Program

open InstructionStream

variable {settings : Settings.Program} {image : Image} {offset stop : Nat} {events : List Event}

/-- A stream whose first part a sweep has passed without failures goes on from where that part
ends. -/
theorem Advances.ofReader_eq (h : Advances settings image offset events stop)
    (hnone : events.filterMap Event.failure? = []) {reader : BitReader image}
    (hposition : reader.position = 8 * offset) (hstart : settings.start ≤ offset) :
    ∃ last : BitReader image, last.position = 8 * stop ∧
      ofReader settings.decoder (settings.origin - settings.start) reader =
        (events.filterMap Event.instruction?).foldr cons
          (ofReader settings.decoder (settings.origin - settings.start) last) := by
  induction h generalizing reader with
  | refl => exact ⟨reader, hposition, rfl⟩
  | @decoded offset stop i events outcome address rest ih =>
    have hle := ByteString.add_size_le_of_outcome outcome
    have hpos := i.one_le_size
    have hend : ¬ reader.atEnd = true := by
      rw [atEnd_iff hposition]
      omega
    have hdecode := instructionAt_addressOf hposition hstart
    rw [outcome] at hdecode
    obtain ⟨j, next, hdecode, haddress, hmove, hnext⟩ := hdecode
    obtain rfl := Instruction.eq_of_move (haddress.trans address.symm) hmove
    rw [addressOf, ← add_sub_assoc, add_sub_right_comm] at hdecode
    obtain ⟨last, hlast, hstream⟩ := ih hnone hnext (by omega)
    refine ⟨last, hlast, ?_⟩
    rw [ofReader_of_ok hend hdecode, hstream]
    rfl
  | skipped outcome policy skip pos rest ih => cases hnone

theorem Advances.head_address (h : Advances settings image offset events stop)
    (hnone : events.filterMap Event.failure? = []) :
    ∀ i, (events.filterMap Event.instruction?).head? = some i →
      i.address = settings.addressAt offset := by
  cases h with
  | refl => simp
  | decoded outcome address rest =>
    rintro i ⟨⟩
    exact address
  | skipped outcome policy skip pos rest => cases hnone

/-- Each instruction that a sweep without failures passes is right behind the one before it. -/
theorem Advances.adjacent (h : Advances settings image offset events stop)
    (hnone : events.filterMap Event.failure? = []) (hstart : settings.start ≤ offset) :
    Adjacent (fun i j => i.endAddress = j.address) (events.filterMap Event.instruction?) := by
  induction h with
  | refl => trivial
  | @decoded offset stop i events outcome address rest ih =>
    have hhead := rest.head_address hnone
    have hrest := ih hnone (by omega)
    rw [List.filterMap_cons_some (by rfl)]
    rcases hlist : events.filterMap Event.instruction? with _ | ⟨j, later⟩
    · trivial
    · rw [hlist] at hhead hrest
      have hfirst := hhead j rfl
      refine ⟨?_, hrest⟩
      rw [Settings.Program.addressAt] at hfirst address
      rw [hfirst, Instruction.endAddress, address]
      omega
  | skipped outcome policy skip pos rest ih => cases hnone

/-- These instructions cover the bytes that the sweep has passed. -/
theorem Advances.offset_add_size (h : Advances settings image offset events stop)
    (hnone : events.filterMap Event.failure? = []) :
    offset + ((events.filterMap Event.instruction?).map Instruction.size).sum = stop := by
  induction h with
  | refl => rfl
  | @decoded offset stop i events outcome address rest ih =>
    have hrest := ih hnone
    rw [List.filterMap_cons_some (by rfl), List.map_cons, List.sum_cons]
    omega
  | skipped outcome policy skip pos rest ih => cases hnone

end Program

/-! ### Agreement -/

namespace InstructionStream

open Program

/-- What a stream over an image has in common with the program of a sweep that stops at the first
fault, and with the result of one that raises it. -/
structure AgreesWith (origin : Nat) (image : Image) (stopped : Program)
    (raised : Except Error Decoding) (stream : InstructionStream) : Prop where
  instructions : stream.instructions = stopped.instructions
  /-- The stream ends without an error exactly where no failure is recorded. -/
  error?_eq_none_iff : stream.error? = none ↔ stopped.failures = []
  /-- Otherwise its error is the fault that is recorded, right behind the instructions. -/
  recorded : ∀ error, stream.error? = some error → ∃ f, stopped.failures = [f] ∧
    error = .decode f.fault ∧ f.address = origin + stream.size
  /-- The same error is raised. -/
  raised_iff : ∀ error, stream.error? = some error ↔ raised = .error error
  /-- The first instruction is at the origin. -/
  first : ∀ i, stream.instructions.head? = some i → i.address = origin
  /-- Every other instruction is right behind the one before it. -/
  adjacent : Adjacent (fun i j => i.endAddress = j.address) stream.instructions
  /-- Without an error, the instructions cover the image. -/
  size : stream.error? = none → stream.size = image.size

variable {settings : Settings.Program} {image : Image} {events : List Event} {stopped : Program}

theorem ofImage_of_complete (hstart : settings.start = 0)
    (h : Advances settings image settings.start events image.size)
    (hnone : events.filterMap Event.failure? = []) :
    ofImage settings.decoder settings.origin image =
      ⟨events.filterMap Event.instruction?, none⟩ := by
  have hposition : (BitReader.start image).position = 8 * settings.start := by
    rw [hstart]
    rfl
  obtain ⟨last, hlast, hstream⟩ := h.ofReader_eq hnone hposition (Nat.le_refl _)
  have hend : last.atEnd = true := (atEnd_iff hlast).2 (Nat.le_refl _)
  rw [ofReader_of_atEnd hend, foldr_cons, List.append_nil, hstart, Nat.cast_zero, sub_zero]
    at hstream
  exact hstream

/-- Where a sweep without failures comes to bytes that do not decode, the stream ends with their
fault. -/
theorem ofImage_of_fault {stop : Nat} {cause : Fault.Cause} (hstart : settings.start = 0)
    (h : Advances settings image settings.start events stop)
    (hnone : events.filterMap Event.failure? = []) (hlt : stop < image.size)
    (houtcome : ByteString.outcome settings.decoder (image.toList.drop stop) = .error cause) :
    ofImage settings.decoder settings.origin image =
      ⟨events.filterMap Event.instruction?,
        some (.decode (failureOf settings image stop cause).fault)⟩ := by
  have hposition : (BitReader.start image).position = 8 * settings.start := by
    rw [hstart]
    rfl
  obtain ⟨last, hlast, hstream⟩ := h.ofReader_eq hnone hposition (Nat.le_refl _)
  have hend : ¬ last.atEnd = true := by
    rw [atEnd_iff hlast]
    omega
  have hdecode := instructionAt_addressOf hlast h.le
  rw [houtcome] at hdecode
  dsimp only at hdecode
  rw [addressOf, ← add_sub_assoc, add_sub_right_comm] at hdecode
  rw [ofReader_of_error hend hdecode, foldr_cons, List.append_nil, hstart, Nat.cast_zero, sub_zero]
    at hstream
  exact hstream

/-- A stream that covers an image agrees with sweeps that meet no fault. -/
theorem AgreesWith.of_complete (hstart : settings.start = 0)
    (h : Advances settings image settings.start events image.size)
    (hnone : events.filterMap Event.failure? = [])
    (hinstructions : stopped.instructions = events.filterMap Event.instruction?)
    (hfailures : stopped.failures = []) (decoding : Decoding) :
    AgreesWith settings.origin image stopped (.ok decoding)
      ⟨events.filterMap Event.instruction?, none⟩ where
  instructions := hinstructions.symm
  error?_eq_none_iff := by simp [hfailures]
  recorded := by simp
  raised_iff := by simp
  first i hi := (h.head_address hnone i hi).trans settings.addressAt_start
  adjacent := h.adjacent hnone (Nat.le_refl _)
  size _ := by
    have hsize := h.offset_add_size hnone
    rwa [hstart, Nat.zero_add] at hsize

/-- A stream that ends with the fault of a failure agrees with sweeps that record or raise this
failure. -/
theorem AgreesWith.of_failure {stop : Nat} {cause : Fault.Cause} (hstart : settings.start = 0)
    (h : Advances settings image settings.start events stop)
    (hnone : events.filterMap Event.failure? = [])
    (hinstructions : stopped.instructions = events.filterMap Event.instruction?)
    (hfailures : stopped.failures = [failureOf settings image stop cause]) :
    AgreesWith settings.origin image stopped
      (.error (.decode (failureOf settings image stop cause).fault))
      ⟨events.filterMap Event.instruction?,
        some (.decode (failureOf settings image stop cause).fault)⟩ where
  instructions := hinstructions.symm
  error?_eq_none_iff := by simp [hfailures]
  recorded error herror := by
    cases herror
    refine ⟨_, hfailures, rfl, ?_⟩
    have hsize := h.offset_add_size hnone
    rw [hstart, Nat.zero_add] at hsize
    rw [failureOf, Settings.Program.addressAt, hstart, ← hsize]
    rfl
  raised_iff error := by simp
  first i hi := (h.head_address hnone i hi).trans settings.addressAt_start
  adjacent := h.adjacent hnone (Nat.le_refl _)
  size herror := by simp at herror

/-- On every image, the stream agrees with the sweeps that start at the first byte and do not step
over faults. -/
theorem ofImage_agrees (settings : Settings.Program) (image : Image)
    (hstart : settings.start = 0) :
    ∃ stopped, decode (settings.withPolicy .stop) image = .ok stopped ∧
      (ofImage settings.decoder settings.origin image).AgreesWith settings.origin image
        stopped.program (decode (settings.withPolicy .raise) image) := by
  have hzero : (settings.withPolicy .stop).start = 0 := hstart
  have hstarts : ∀ policy, (settings.withPolicy policy).start ≤ image.size :=
    fun _ => hstart.le.trans (Nat.zero_le _)
  have hskip : (settings.withPolicy .stop).faultPolicy ≠ .skip :=
    Settings.FaultPolicy.noConfusion
  obtain ⟨events, hsweeps⟩ :=
    exists_sweeps Settings.FaultPolicy.noConfusion (Nat.le_refl _) (hstarts .stop)
  obtain ⟨stopped, hrecords, hdecode⟩ := decode_of_sweeps (hstarts .stop) hsweeps
  refine ⟨_, hdecode, ?_⟩
  rcases hsweeps.exists_advances with
    hall | ⟨front, stop, cause, hfront, hlt, houtcome, -, rfl⟩
  · have hnone := hall.failures_eq_nil hskip
    have hpasses : Sweeps (settings.withPolicy .raise) image settings.start events :=
      (hall.withPolicy hnone .raise).sweeps_of_size
    obtain ⟨passed, -, hraised⟩ := decode_of_sweeps (hstarts .raise) hpasses
    have hstream := ofImage_of_complete hzero hall hnone
    have hagrees := AgreesWith.of_complete hzero hall hnone hrecords.instructions
      (hrecords.failures.trans hnone) ⟨passed, messagesOf .raise passed.failures⟩
    rw [← hstream] at hagrees
    rw [hraised]
    exact hagrees
  · have hnone := hfront.failures_eq_nil hskip
    have hraised := (hfront.withPolicy hnone .raise).decode_eq_error (hstarts .raise) hlt houtcome
      rfl
    have hstream := ofImage_of_fault hzero hfront hnone hlt houtcome
    have hinstructions : stopped.instructions = front.filterMap Event.instruction? := by
      rw [hrecords.instructions, List.filterMap_append]
      exact List.append_nil _
    have hfailures :
        stopped.failures = [failureOf (settings.withPolicy .stop) image stop cause] := by
      rw [hrecords.failures, List.filterMap_append, hnone]
      rfl
    have hagrees := AgreesWith.of_failure hzero hfront hnone hinstructions hfailures
    rw [← hstream] at hagrees
    rw [hraised]
    exact hagrees

/-- A move from `bx` to `ax` covers an image by itself, and with a literal behind it that is cut off
the stream ends with the fault of the literal. -/
theorem ofImage_agrees_truncated :
    ({ origin := 0x100 } : Settings.Program).start = 0 ∧
      (∃ stopped, decode { origin := 0x100, faultPolicy := .stop } #[0x89, 0xD8] = .ok stopped ∧
        stopped.program.failures = [] ∧ (ofImage {} 0x100 #[0x89, 0xD8]).size = 2 ∧
        (ofImage {} 0x100 #[0x89, 0xD8]).AgreesWith 0x100 #[0x89, 0xD8] stopped.program
          (decode { origin := 0x100, faultPolicy := .raise } #[0x89, 0xD8])) ∧
      ∃ stopped, decode { origin := 0x100, faultPolicy := .stop } #[0x89, 0xD8, 0xB8, 0x05] =
          .ok stopped ∧
        stopped.program.failures.map Failure.address = [0x102] ∧
        (ofImage {} 0x100 #[0x89, 0xD8, 0xB8, 0x05]).error? ≠ none ∧
        (ofImage {} 0x100 #[0x89, 0xD8, 0xB8, 0x05]).AgreesWith 0x100 #[0x89, 0xD8, 0xB8, 0x05]
          stopped.program
          (decode { origin := 0x100, faultPolicy := .raise } #[0x89, 0xD8, 0xB8, 0x05]) := by
  let settings : Settings.Program := { origin := 0x100 }
  let i : Instruction := ⟨0x100, 2, .moveRegisterMemory, .register ⟨.word, 0⟩,
    .register ⟨.word, 3⟩, by decide, by decide, rfl⟩
  refine ⟨rfl, ?_, ?_⟩
  · have hsweeps : Sweeps settings #[0x89, 0xD8] 0 [.decoded i] := .decoded rfl rfl .done
    obtain ⟨program, hrecords, hprogram⟩ := decode_of_sweeps (Nat.zero_le _) hsweeps
    obtain ⟨stopped, hdecode, hagrees⟩ := ofImage_agrees settings #[0x89, 0xD8] rfl
    obtain rfl := Except.ok.inj (hdecode.symm.trans hprogram)
    have hnone : program.failures = [] := hrecords.failures
    exact ⟨_, hprogram, hnone, hagrees.size (hagrees.error?_eq_none_iff.2 hnone), hagrees⟩
  · let image : Image := #[0x89, 0xD8, 0xB8, 0x05]
    have hsweeps : Sweeps settings image 0
        [.decoded i, .failed (failureOf settings image 2 (.truncated 8 0))] :=
      .decoded rfl rfl (.halted (by decide) rfl (.inl rfl))
    obtain ⟨program, hrecords, hprogram⟩ := decode_of_sweeps (Nat.zero_le _) hsweeps
    obtain ⟨stopped, hdecode, hagrees⟩ := ofImage_agrees settings image rfl
    obtain rfl := Except.ok.inj (hdecode.symm.trans hprogram)
    have hone : program.failures = [failureOf settings image 2 (.truncated 8 0)] :=
      hrecords.failures
    refine ⟨_, hprogram, ?_, ?_, hagrees⟩
    · rw [hone]
      rfl
    · refine mt hagrees.error?_eq_none_iff.1 ?_
      rw [hone]
      exact List.cons_ne_nil _ _

end InstructionStream

end MachineCode
