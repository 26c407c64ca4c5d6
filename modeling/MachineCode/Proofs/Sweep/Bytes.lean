import MachineCode.Proofs.Sweep.Decode

/-!
# The bytes of instructions

A program keeps the bytes that were decoded, and an instruction finds its own by address and size.
These are the bytes that the sweep stood on when it decoded the instruction, although a program
counts them from its origin, and a sweep from the start of the binary. Where all bytes are decoded,
the binary consists of the bytes of its instructions.

## Main results

* `Program.Sweeps.exists_offset` : the place at which an instruction was decoded.
* `Program.Records.toList_bytesOf` : the bytes of an instruction are those at that place.
* `Program.outcome_bytesOf` : they begin a string that decodes to the move of the instruction.
* `Program.flatMap_bytesOf` : a binary without failures consists of the bytes of its instructions.
-/

namespace MachineCode

theorem Image.place_natCast {size position : Nat} (h : position ≤ size) :
    place size position = position := by
  rw [place, if_neg (by omega)]
  omega

namespace Program

variable {settings : Settings.Program} {image : Image} {offset : Nat} {events : List Event}

/-- The bytes of an instruction that lies within the image of a program are those of a slice with
both ends inside of it. -/
theorem bytesOf_eq_extract {program : Program} {i : Instruction}
    (hstart : program.origin ≤ i.address)
    (hstop : i.endAddress ≤ program.origin + program.data.size) :
    i.address - program.origin + i.size ≤ program.data.size ∧
      program.bytesOf i = program.data.extract (i.address - program.origin)
        (i.address - program.origin + i.size) := by
  rw [Instruction.endAddress] at hstop
  have hfirst : (i.address : Int) - program.origin = (i.address - program.origin : Nat) := by
    omega
  have hle : i.address - program.origin + i.size ≤ program.data.size := by omega
  refine ⟨hle, ?_⟩
  rw [bytesOf, Image.slice, hfirst, ← Nat.cast_add, Image.place_natCast (by omega),
    Image.place_natCast hle]

/-- Every instruction of a run was decoded at a byte of the image. -/
theorem Sweeps.exists_offset (h : Sweeps settings image offset events) :
    ∀ i ∈ events.filterMap Event.instruction?, ∃ place, offset ≤ place ∧
      i.address = settings.addressAt place ∧ place + i.size ≤ image.size ∧
      ByteString.outcome settings.decoder (image.toList.drop place) = .ok i.move := by
  induction h with
  | done => simp
  | @decoded offset i events outcome address rest ih =>
    intro j hj
    rcases List.mem_cons.1 hj with rfl | hj
    · exact ⟨offset, Nat.le_refl _, address, ByteString.add_size_le_of_outcome outcome, outcome⟩
    · obtain ⟨place, hle, hplace⟩ := ih j hj
      exact ⟨place, by omega, hplace⟩
  | skipped outcome policy skip pos rest ih =>
    intro j hj
    obtain ⟨place, hle, hplace⟩ := ih j hj
    exact ⟨place, by omega, hplace⟩
  | halted lt outcome halt => simp [Event.instruction?]

/-- The bytes of an instruction are those at the place at which it was decoded. -/
theorem Records.toList_bytesOf {program : Program} (h : Records settings image events program)
    {i : Instruction} {place : Nat} (hstart : settings.start ≤ place)
    (haddress : i.address = settings.addressAt place) (hle : place + i.size ≤ image.size) :
    (program.bytesOf i).toList = (image.toList.drop place).take i.size := by
  have hsize : program.data.size = image.size - settings.start := by
    rw [h.data, Array.size_extract, Nat.min_self]
  have hfirst : i.address = program.origin + (place - settings.start) := by
    rw [haddress, h.origin, Settings.Program.addressAt]
  have hstop : i.endAddress ≤ program.origin + program.data.size := by
    rw [Instruction.endAddress]
    omega
  rw [(bytesOf_eq_extract (by omega) hstop).2, hfirst, Nat.add_sub_cancel_left, h.data]
  simp only [Array.toList_extract, List.extract_eq_take_drop, List.drop_take, List.drop_drop,
    List.take_take]
  congr 1
  · omega
  · congr 1
    omega

/-- The bytes of an instruction of a program begin a string that decodes to its move. -/
theorem outcome_bytesOf {decoding : Decoding} (hdecode : decode settings image = .ok decoding)
    {i : Instruction} (hi : i ∈ decoding.program.instructions) : ∃ bytes,
      (decoding.program.bytesOf i).toList = bytes.take i.size ∧
        ByteString.outcome settings.decoder bytes = .ok i.move := by
  obtain ⟨events, hsweeps, hrecords, -⟩ := sweeps_of_decode hdecode
  rw [hrecords.instructions] at hi
  obtain ⟨place, hle, haddress, hend, houtcome⟩ := hsweeps.exists_offset i hi
  exact ⟨_, hrecords.toList_bytesOf hle haddress hend, houtcome⟩

/-- Where all bytes that are left are decoded, they are those of the instructions. -/
theorem Sweeps.flatMap_bytesOf {program : Program} {all : List Event}
    (hrecords : Records settings image all program) (h : Sweeps settings image offset events)
    (hstart : settings.start ≤ offset) (hcomplete : events.filterMap Event.failure? = []) :
    (events.filterMap Event.instruction?).flatMap (fun i => (program.bytesOf i).toList) =
      image.toList.drop offset := by
  induction h with
  | done => exact (List.drop_of_length_le (by simp)).symm
  | @decoded offset i events outcome address rest ih =>
    have hle := ByteString.add_size_le_of_outcome outcome
    simp only [List.filterMap_cons, Event.instruction?, List.flatMap_cons]
    rw [hrecords.toList_bytesOf hstart address hle, ih (by omega) hcomplete, ← List.drop_drop,
      List.take_append_drop]
  | skipped outcome policy skip pos rest ih => cases hcomplete
  | halted lt outcome halt => cases hcomplete

/-- A binary without failures consists of the bytes of its instructions. -/
theorem flatMap_bytesOf {decoding : Decoding} (h : decode settings image = .ok decoding)
    (hcomplete : decoding.program.failures = []) :
    decoding.program.instructions.flatMap (fun i => (decoding.program.bytesOf i).toList) =
      image.toList.drop settings.start := by
  obtain ⟨events, hsweeps, hrecords, -⟩ := sweeps_of_decode h
  rw [hrecords.failures] at hcomplete
  rw [hrecords.instructions]
  exact hsweeps.flatMap_bytesOf hrecords (Nat.le_refl _) hcomplete

theorem start_add_size {decoding : Decoding} (h : decode settings image = .ok decoding)
    (hcomplete : decoding.program.failures = []) (hstart : settings.start ≤ image.size) :
    settings.start + decoding.program.size = image.size := by
  obtain ⟨events, hsweeps, hrecords, -⟩ := sweeps_of_decode h
  rw [hrecords.failures, ← filterMap_failure?_eq] at hcomplete
  have hsize := hsweeps.tiles_program.size_of_complete hcomplete
  rw [filterMap_instruction?_eq, ← hrecords.instructions, Array.size_extract] at hsize
  rw [Program.size]
  omega

theorem decode_of_outcome {i : Instruction} (haddress : i.address = 0) (hsize : i.size = image.size)
    (houtcome : ByteString.outcome {} image.toList = .ok i.move) :
    ∃ decoding, decode .defaults image = .ok decoding ∧ decoding.program.instructions = [i] ∧
      decoding.program.failures = [] ∧ (decoding.program.bytesOf i).toList = image.toList := by
  have hsweeps : Sweeps .defaults image 0 [.decoded i] := by
    refine .decoded houtcome haddress ?_
    rw [Nat.zero_add, hsize]
    exact .done
  obtain ⟨program, hrecords, hdecode⟩ := decode_of_sweeps (Nat.zero_le _) hsweeps
  have hbytes := flatMap_bytesOf hdecode hrecords.failures
  rw [hrecords.instructions] at hbytes
  refine ⟨_, hdecode, hrecords.instructions, hrecords.failures, ?_⟩
  exact (List.flatMap_singleton _ _).symm.trans hbytes

end Program

end MachineCode
