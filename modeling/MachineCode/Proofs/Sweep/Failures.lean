import MachineCode.Proofs.Sweep.Policy

/-!
# Recorded failures

A failure of a program says where an instruction was expected and why there is none. It says this
twice, by an address and by an offset in the binary, and its fault blames a third place. This file
shows that nothing gets lost or shifted on the way from the fault to the record, however many
failures there have been before: the record is what decoding at this byte alone would report. No
failure is recorded twice, and none inside of an instruction.

## Main definitions

* `Failure.IsFaithful` : a failure tells what decoding at its offset reports.

## Main results

* `Program.Sweeps.isFaithful` : all failures of a run are faithful.
* `Program.Tiles.not_covers` : an item does not begin inside of another one.
* `Program.decode_failures` : the failures of a decoded program.
-/

namespace MachineCode

/-- A failure tells what decoding at its offset reports. -/
structure Failure.IsFaithful (settings : Settings.Program) (image : Image) (f : Failure) :
    Prop where
  start_le : settings.start ≤ f.offset
  offset_lt : f.offset < image.size
  /-- The offset is as far behind the start as the address is behind the origin. -/
  distance : (f.offset : Int) - settings.start = f.address - settings.origin
  /-- The fault is the one of the instruction at the offset, whatever address that has. -/
  raised : ∃ reader, BitReader.atByte? image f.offset 0 = some reader ∧
    ∀ address : Nat, Decoder.instructionAt settings.decoder address reader =
      .error (.decode f.fault)
  /-- A truncation blames the end of the whole binary, and all else the offset. -/
  blamed : match f.fault.cause with
    | .truncated _ _ => f.fault.offset = image.size
    | .unknownOpcode _ _ | .unimplemented _ _ => f.fault.offset = f.offset
    | .other _ => False
  /-- A single note names the offset. -/
  starts : f.fault.starts = [f.offset]
  notes : ∃ note, f.fault.notes = [note] ∧ Fault.Names note "instruction started" f.offset
  /-- The message names the place that is blamed. -/
  names : f.fault.NamesPlaces

namespace Program

variable {settings : Settings.Program} {image : Image} {offset : Nat} {events : List Event}

theorem isFaithful_failureOf {cause : Fault.Cause} (hstart : settings.start ≤ offset)
    (hlt : offset < image.size)
    (h : ByteString.outcome settings.decoder (image.toList.drop offset) = .error cause) :
    (failureOf settings image offset cause).IsFaithful settings image := by
  obtain ⟨reader, hreader, hposition⟩ := BitReader.atByte?_zero hlt.le
  have hraised : ∀ address : Nat, Decoder.instructionAt settings.decoder address reader =
      .error (.decode (.ofCause image.size offset cause)) := by
    intro address
    have hdecode := Decoder.instructionAt_of_position settings.decoder address hposition
    rwa [h] at hdecode
  constructor
  case start_le => exact hstart
  case offset_lt => exact hlt
  case distance =>
    simp only [failureOf, Settings.Program.addressAt]
    omega
  case raised => exact ⟨reader, hreader, hraised⟩
  case blamed =>
    have hexplains := ByteString.explains_of_outcome h
    cases cause with
    | other message => exact hexplains
    | _ => rfl
  case starts => rfl
  case notes => exact ⟨_, rfl, Fault.names_startText _⟩
  case names => exact Fault.namesPlaces_ofCause ..

/-- All failures of a run are faithful. -/
theorem Sweeps.isFaithful (h : Sweeps settings image offset events)
    (hstart : settings.start ≤ offset) :
    ∀ f ∈ events.filterMap Event.failure?, f.IsFaithful settings image := by
  induction h with
  | done => simp
  | decoded outcome address rest ih => exact ih (by omega)
  | @skipped offset count cause events outcome policy skip pos rest ih =>
    have hle := ByteString.add_le_of_skip? outcome skip
    intro f hf
    rcases List.mem_cons.1 hf with rfl | hf
    · exact isFaithful_failureOf hstart (by omega) outcome
    · exact ih (by omega) f hf
  | halted lt outcome halt =>
    intro f hf
    rw [List.mem_singleton.1 hf]
    exact isFaithful_failureOf hstart lt outcome

/-! ### Failures between instructions -/

/-- An item does not begin inside of another one. -/
theorem Tiles.not_covers {policy : Settings.FaultPolicy} {start stop : Nat} {items : List Item}
    (h : Tiles policy stop start items) {a b : Item} (ha : a ∈ items) (hb : b ∈ items)
    (hne : a ≠ b) : ¬ a.Covers b.address := by
  -- behind an item nothing begins before its end, in front of it all begins before its start
  have hpairwise : items.Pairwise fun a b => ¬ a.Covers b.address ∧ ¬ b.Covers a.address := by
    refine (h.pairwise_lt.and h.pairwise_end_le).imp ?_
    rintro a b ⟨hlt, hend⟩
    refine ⟨?_, fun hcovers => hcovers.1.not_gt hlt⟩
    rintro ⟨-, last, hlast, hinside⟩
    exact (hend last hlast).not_gt hinside
  have : Std.Symm fun a b : Item => ¬ a.Covers b.address ∧ ¬ b.Covers a.address :=
    ⟨fun _ _ => And.symm⟩
  exact (hpairwise.forall ha hb hne).1

theorem mem_items_of_mem_failures {f : Failure} (h : f ∈ events.filterMap Event.failure?) :
    .failure f ∈ events.map Event.item := by
  rw [← filterMap_failure?_eq] at h
  obtain ⟨item, hitem, hf⟩ := List.mem_filterMap.1 h
  cases item <;> cases hf
  exact hitem

theorem Sweeps.failures_pairwise_lt (h : Sweeps settings image settings.start events) :
    (events.filterMap Event.failure?).Pairwise fun f g => f.address < g.address := by
  rw [← filterMap_failure?_eq]
  refine List.pairwise_filterMap.2 (h.tiles_program.pairwise_lt.imp ?_)
  intro a b hlt f hf g hg
  cases a <;> cases hf
  cases b <;> cases hg
  exact hlt

theorem Sweeps.not_inside (h : Sweeps settings image settings.start events) {f : Failure}
    {i : Instruction} (hf : f ∈ events.filterMap Event.failure?)
    (hi : i ∈ events.filterMap Event.instruction?) :
    ¬ (i.address ≤ f.address ∧ f.address < i.endAddress) := by
  rintro ⟨hle, hlt⟩
  exact h.tiles_program.not_covers (mem_items_of_mem_instructions hi)
    (mem_items_of_mem_failures hf) Item.noConfusion ⟨hle, _, rfl, Int.ofNat_lt.2 hlt⟩

/-- A binary that is decoded without raising a fault gives a program whose failures are faithful and
in the order of their addresses, and lie inside of no instruction. -/
theorem decode_failures (settings : Settings.Program) (image : Image)
    (hstart : settings.start ≤ image.size) (hpolicy : settings.faultPolicy ≠ .raise) :
    ∃ decoding, decode settings image = .ok decoding ∧
      (∀ f ∈ decoding.program.failures, f.IsFaithful settings image) ∧
      (decoding.program.failures.Pairwise fun f g => f.address < g.address) ∧
      ∀ f ∈ decoding.program.failures, ∀ i ∈ decoding.program.instructions,
        ¬ (i.address ≤ f.address ∧ f.address < i.endAddress) := by
  obtain ⟨events, hsweeps⟩ := exists_sweeps hpolicy (Nat.le_refl _) hstart
  obtain ⟨program, hrecords, hdecode⟩ := decode_of_sweeps hstart hsweeps
  refine ⟨_, hdecode, ?_⟩
  simp only [hrecords.failures, hrecords.instructions]
  exact ⟨hsweeps.isFaithful (Nat.le_refl _), hsweeps.failures_pairwise_lt,
    fun f hf i hi => hsweeps.not_inside hf hi⟩

/-- Behind a byte that is not decoded come a load, a byte of no known family, a group that is not
decoded and a literal that is cut off, whose failure is the third one. -/
theorem decode_failures_skip :
    1 ≤ (#[0x00, 0x8B, 0x07, 0x00, 0xFF, 0xC0, 0xB0] : Image).size ∧
      Settings.FaultPolicy.skip ≠ .raise ∧
      ∃ decoding, decode { origin := 0x100, start := 1, faultPolicy := .skip }
          #[0x00, 0x8B, 0x07, 0x00, 0xFF, 0xC0, 0xB0] = .ok decoding ∧
        decoding.program.failures.map Failure.offset = [3, 4, 6] ∧
        decoding.program.failures.map (fun f => f.fault.offset) = [3, 4, 7] ∧
        (∀ f ∈ decoding.program.failures,
          f.IsFaithful { origin := 0x100, start := 1, faultPolicy := .skip }
            #[0x00, 0x8B, 0x07, 0x00, 0xFF, 0xC0, 0xB0]) ∧
        ∀ f ∈ decoding.program.failures, ∀ i ∈ decoding.program.instructions,
          ¬ (i.address ≤ f.address ∧ f.address < i.endAddress) := by
  let settings : Settings.Program := { origin := 0x100, start := 1, faultPolicy := .skip }
  let image : Image := #[0x00, 0x8B, 0x07, 0x00, 0xFF, 0xC0, 0xB0]
  let load : Instruction := ⟨0x100, 2, .moveRegisterMemory, .register ⟨.word, 0⟩,
    .memory (.bare .bx), by decide, by decide, rfl⟩
  have hsweeps : Sweeps settings image 1
      (.decoded load :: .failed (failureOf settings image 3 (.unknownOpcode 0 4)) ::
        .failed (failureOf settings image 4 (.unimplemented .registerMemoryGroup (some 2))) ::
        [.failed (failureOf settings image 6 (.truncated 8 0))]) := by
    have hone : (Fault.ofCause 7 3 (.unknownOpcode 0 4)).skip? = some ((1 : Nat) : Int) := rfl
    have htwo : (Fault.ofCause 7 4 (.unimplemented .registerMemoryGroup (some 2))).skip? =
        some ((2 : Nat) : Int) := rfl
    exact .decoded rfl rfl (.skipped rfl rfl hone (by decide) (.skipped rfl rfl htwo (by decide)
      (.halted (by decide) rfl (.inr ⟨rfl, rfl⟩))))
  obtain ⟨program, hrecords, hprogram⟩ := decode_of_sweeps (by decide) hsweeps
  obtain ⟨decoding, hdecode, hfaithful, -, houtside⟩ :=
    decode_failures settings image (by decide) (by decide)
  rw [hprogram] at hdecode
  cases hdecode
  refine ⟨by decide, by decide, _, hprogram, ?_, ?_, hfaithful, houtside⟩
  · rw [hrecords.failures]
    rfl
  · rw [hrecords.failures]
    rfl

end Program

end MachineCode
