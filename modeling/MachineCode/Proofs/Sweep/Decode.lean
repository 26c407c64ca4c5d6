import MachineCode.Proofs.Sweep.Tiling

/-!
# The program of a sweep

A sweep over a binary that does not raise a fault gives a program: what its run records is in order
and within the image, so that no check of the program fails. The items of this program tile the
addresses of the image up to where the sweep has come.

## Main definitions

* `Program.IsTiled` : the items of a program lie one behind the other, and none is lost.

## Main results

* `Program.run_of_sweeps`, `Program.decode_of_sweeps` : the program that a run describes, with the
  messages that its failures call for.
* `Program.decode_isTiled` : a program that is decoded is tiled.
-/

namespace MachineCode

theorem Adjacent.of_pairwise {α : Type} {r : α → α → Prop} {items : List α}
    (h : items.Pairwise r) : Adjacent r items := by
  induction h with
  | nil => trivial
  | @cons a items hhead hrest ih =>
    cases items with
    | nil => trivial
    | cons b items => exact ⟨hhead b List.mem_cons_self, ih⟩

namespace Program

variable {settings : Settings.Program} {image : Image} {policy : Settings.FaultPolicy}
  {start stop : Nat} {items : List Item}

namespace Tiles

theorem pairwise_end_le (h : Tiles policy stop start items) :
    items.Pairwise fun a b => ∀ last, a.end? = some last → last ≤ b.address := by
  induction h with
  | done => exact .nil
  | @instruction i items rest ih =>
    refine .cons (fun item hitem last hlast => ?_) ih
    cases hlast
    exact_mod_cast (rest.address_bounds item hitem).1
  | @failure f next items skips ends lt rest ih =>
    refine .cons (fun item hitem last hlast => ?_) ih
    rw [ends] at hlast
    cases hlast
    exact_mod_cast (rest.address_bounds item hitem).1
  | halt lt halts => exact List.pairwise_singleton _ _

theorem instructions_adjacent (h : Tiles policy stop start items) :
    Adjacent (fun i j => i.endAddress ≤ j.address) (items.filterMap Item.instruction?) := by
  refine .of_pairwise (List.pairwise_filterMap.2 (h.pairwise_end_le.imp ?_))
  intro a b hle i hi j hj
  cases a <;> cases hi
  cases b <;> cases hj
  exact_mod_cast hle _ rfl

theorem instructions_within (h : Tiles policy stop start items) :
    ∀ i ∈ items.filterMap Item.instruction?, start ≤ i.address ∧ i.endAddress ≤ stop := by
  induction h with
  | done => simp
  | @instruction i items rest ih =>
    have hstop := rest.start_le
    intro j hj
    simp only [List.filterMap_cons, Item.instruction?] at hj
    rcases List.mem_cons.1 hj with rfl | hj
    · exact ⟨Nat.le_refl _, hstop⟩
    · have hbounds := ih j hj
      have hsize : i.address ≤ i.endAddress := Nat.le_add_right _ _
      exact ⟨hsize.trans hbounds.1, hbounds.2⟩
  | @failure f next items skips ends lt rest ih =>
    intro j hj
    have hbounds := ih j hj
    exact ⟨lt.le.trans hbounds.1, hbounds.2⟩
  | halt lt halts => simp [Item.instruction?]

theorem failures_adjacent (h : Tiles policy stop start items) :
    Adjacent (fun f g => f.address ≤ g.address) (items.filterMap Item.failure?) := by
  refine .of_pairwise (List.pairwise_filterMap.2 (h.pairwise_lt.imp ?_))
  intro a b hlt f hf g hg
  cases a <;> cases hf
  cases b <;> cases hg
  exact hlt.le

theorem failures_within (h : Tiles policy stop start items) :
    ∀ f ∈ items.filterMap Item.failure?, start ≤ f.address ∧ f.address ≤ stop := by
  intro f hf
  obtain ⟨item, hitem, hf⟩ := List.mem_filterMap.1 hf
  have hbounds := h.address_bounds item hitem
  cases item <;> cases hf
  exact ⟨hbounds.1, hbounds.2.le⟩

/-- Instructions without failures between them cover all addresses. -/
theorem size_of_complete (h : Tiles policy stop start items)
    (hcomplete : items.filterMap Item.failure? = []) :
    start + (items.filterMap Item.instruction?).foldr (fun i total => i.size + total) 0 = stop := by
  induction h with
  | done => rfl
  | @instruction i items rest ih =>
    have hrest := ih hcomplete
    simp only [List.filterMap_cons, Item.instruction?, List.foldr_cons]
    rw [Instruction.endAddress] at hrest
    omega
  | failure skips ends lt rest ih => cases hcomplete
  | halt lt halts => cases hcomplete

theorem getLast_of_complete (h : Tiles policy stop start items)
    (hcomplete : items.filterMap Item.failure? = []) :
    ((items.filterMap Item.instruction?).getLast?.map Instruction.endAddress).getD start =
      stop := by
  induction h with
  | done => rfl
  | @instruction i items rest ih =>
    have hrest := ih hcomplete
    simp only [List.filterMap_cons, Item.instruction?, List.getLast?_cons]
    cases hlast : (items.filterMap Item.instruction?).getLast? with
    | none =>
      rw [hlast] at hrest
      exact hrest
    | some j =>
      rw [hlast] at hrest
      exact hrest
  | failure skips ends lt rest ih => cases hcomplete
  | halt lt halts => cases hcomplete

theorem getLast_of_isTruncation (h : Tiles policy stop start items) :
    ∀ item ∈ items, item.IsTruncation → items.getLast? = some item := by
  induction h with
  | done => simp
  | @instruction i items rest ih =>
    intro item hitem htruncation
    rcases List.mem_cons.1 hitem with rfl | hitem
    · exact absurd htruncation id
    · rw [List.getLast?_cons, ih item hitem htruncation]
      rfl
  | @failure f next items skips ends lt rest ih =>
    intro item hitem htruncation
    rcases List.mem_cons.1 hitem with rfl | hitem
    · rw [Item.end?_eq_none_iff.2 htruncation] at ends
      cases ends
    · rw [List.getLast?_cons, ih item hitem htruncation]
      rfl
  | halt lt halts =>
    intro item hitem _
    rw [List.mem_singleton.1 hitem]
    rfl

end Tiles

theorem ofParts?_of_tiles {origin : Nat} {data : Image}
    (h : Tiles policy (origin + data.size) origin items) :
    ∃ program, ofParts? origin data (items.filterMap Item.instruction?)
        (items.filterMap Item.failure?) = some program ∧
      program.origin = origin ∧ program.data = data ∧
      program.instructions = items.filterMap Item.instruction? ∧
      program.failures = items.filterMap Item.failure? := by
  have hparts : (Adjacent (fun i j => i.endAddress ≤ j.address)
        (items.filterMap Item.instruction?) ∧
      ∀ i ∈ items.filterMap Item.instruction?,
        (origin : Int).toNat ≤ i.address ∧ i.endAddress ≤ (origin : Int).toNat + data.size) ∧
      (Adjacent (fun f g => f.address ≤ g.address) (items.filterMap Item.failure?) ∧
      ∀ f ∈ items.filterMap Item.failure?,
        (origin : Int).toNat ≤ f.address ∧ f.address ≤ (origin : Int).toNat + data.size) :=
    ⟨⟨h.instructions_adjacent, h.instructions_within⟩, h.failures_adjacent, h.failures_within⟩
  refine ⟨_, (dif_pos hparts).trans (if_pos (Int.natCast_nonneg _)), rfl, rfl, rfl, rfl⟩

/-! ### Decoded programs -/

/-- The parts of a program are those that the events of a sweep over a binary record. -/
structure Records (settings : Settings.Program) (image : Image) (events : List Event)
    (program : Program) : Prop where
  origin : program.origin = settings.origin
  data : program.data = image.extract settings.start image.size
  instructions : program.instructions = events.filterMap Event.instruction?
  failures : program.failures = events.filterMap Event.failure?

theorem filterMap_instruction?_eq (events : List Event) :
    (events.map Event.item).filterMap Item.instruction? =
      events.filterMap Event.instruction? := by
  rw [List.filterMap_map]
  congr 1
  funext event
  cases event <;> rfl

theorem filterMap_failure?_eq (events : List Event) :
    (events.map Event.item).filterMap Item.failure? = events.filterMap Event.failure? := by
  rw [List.filterMap_map]
  congr 1
  funext event
  cases event <;> rfl

/-- The items of a run over a binary tile its addresses. -/
theorem Sweeps.tiles_program {events : List Event}
    (h : Sweeps settings image settings.start events) :
    Tiles settings.faultPolicy (settings.origin + (image.extract settings.start image.size).size)
      settings.origin (events.map Event.item) := by
  have htiles := h.tiles (Nat.le_refl _)
  have hstop : settings.addressAt image.size =
      settings.origin + (image.extract settings.start image.size).size := by
    simp [Settings.Program.addressAt]
  rwa [hstop, Settings.Program.addressAt_start] at htiles

/-- The program that a run records is the one that the sweep finds, and the messages that it leaves
are those that the failures of the program call for. -/
theorem run_of_sweeps {events : List Event} (hstart : settings.start ≤ image.size)
    (h : Sweeps settings image settings.start events) :
    ∃ program, Records settings image events program ∧
      run settings image = ⟨messagesOf settings.faultPolicy program.failures, .ok program⟩ := by
  obtain ⟨reader, hreader, hposition⟩ := BitReader.atByte?_zero hstart
  have hevents : Program.events settings image =
      ⟨messagesOf settings.faultPolicy (events.filterMap Event.failure?), .ok events⟩ := by
    rw [Program.events, if_pos hstart, hreader]
    exact eventsFrom_of_sweeps h hposition (Nat.le_refl _)
  obtain ⟨program, hprogram, horigin, hdata, hinstructions, hfailures⟩ :=
    ofParts?_of_tiles h.tiles_program
  rw [filterMap_instruction?_eq, filterMap_failure?_eq] at hprogram
  rw [filterMap_instruction?_eq] at hinstructions
  rw [filterMap_failure?_eq] at hfailures
  refine ⟨program, ⟨horigin, hdata, hinstructions, hfailures⟩, ?_⟩
  simp only [run, hevents, ofEvents?, hprogram, Logged.ok_bind, Logged.pure_eq, List.append_nil,
    hfailures]

theorem decode_of_sweeps {events : List Event} (hstart : settings.start ≤ image.size)
    (h : Sweeps settings image settings.start events) :
    ∃ program, Records settings image events program ∧
      decode settings image =
        .ok ⟨program, messagesOf settings.faultPolicy program.failures⟩ := by
  obtain ⟨program, hrecords, hrun⟩ := run_of_sweeps hstart h
  exact ⟨program, hrecords, by rw [decode, hrun]; rfl⟩

/-- A binary that ends before its start is not decoded. Any other one is decoded to the program that
a run records, or raises a fault, without a message in either case of an error. -/
theorem run_cases (settings : Settings.Program) (image : Image) :
    image.size < settings.start ∧
        run settings image = ⟨[], .error (.startPastEnd settings.start image.size)⟩ ∨
      settings.start ≤ image.size ∧
        ((∃ events program, Sweeps settings image settings.start events ∧
            Records settings image events program ∧
            run settings image =
              ⟨messagesOf settings.faultPolicy program.failures, .ok program⟩) ∨
          ∃ error, run settings image = ⟨[], .error error⟩ ∧ Raises settings image error) := by
  by_cases hstart : settings.start ≤ image.size
  · refine .inr ⟨hstart, ?_⟩
    obtain ⟨reader, hreader, hposition⟩ := BitReader.atByte?_zero hstart
    rcases sweeps_or_raises hposition (Nat.le_refl _) hstart with
      ⟨events, hsweeps⟩ | ⟨error, herror, hraises⟩
    · obtain ⟨program, hrecords, hrun⟩ := run_of_sweeps hstart hsweeps
      exact .inl ⟨events, program, hsweeps, hrecords, hrun⟩
    · have hevents : events settings image = ⟨[], .error error⟩ := by
        rw [events, if_pos hstart, hreader]
        exact herror
      exact .inr ⟨error, by rw [run, hevents, Logged.error_bind], hraises⟩
  · refine .inl ⟨by omega, ?_⟩
    rw [run, events, if_neg hstart, Logged.fail, Logged.error_bind]

theorem decode_cases (settings : Settings.Program) (image : Image) :
    image.size < settings.start ∧
        decode settings image = .error (.startPastEnd settings.start image.size) ∨
      settings.start ≤ image.size ∧
        ((∃ events program, Sweeps settings image settings.start events ∧
            Records settings image events program ∧
            decode settings image =
              .ok ⟨program, messagesOf settings.faultPolicy program.failures⟩) ∨
          ∃ error, decode settings image = .error error ∧ Raises settings image error) := by
  rcases run_cases settings image with
    ⟨hlt, hrun⟩ | ⟨hstart, ⟨events, program, hsweeps, hrecords, hrun⟩ | ⟨error, hrun, hraises⟩⟩
  · exact .inl ⟨hlt, by rw [decode, hrun]; rfl⟩
  · exact .inr ⟨hstart, .inl ⟨events, program, hsweeps, hrecords, by rw [decode, hrun]; rfl⟩⟩
  · exact .inr ⟨hstart, .inr ⟨error, by rw [decode, hrun]; rfl, hraises⟩⟩

theorem sweeps_of_decode {decoding : Decoding} (h : decode settings image = .ok decoding) :
    ∃ events, Sweeps settings image settings.start events ∧
      Records settings image events decoding.program ∧
      decoding.log = messagesOf settings.faultPolicy decoding.program.failures := by
  rcases decode_cases settings image with
    ⟨-, herror⟩ | ⟨-, ⟨events, program, hsweeps, hrecords, hdecode⟩ | ⟨error, herror, -⟩⟩
  · rw [h] at herror
    simp at herror
  · rw [h] at hdecode
    cases hdecode
    exact ⟨events, hsweeps, hrecords, rfl⟩
  · rw [h] at herror
    simp at herror

/-- The items of a program lie one behind the other from its origin on, and nothing is lost before
the place where decoding ended. -/
structure IsTiled (policy : Settings.FaultPolicy) (program : Program) : Prop where
  /-- The items have different addresses, in ascending order. -/
  ascending : program.items.Pairwise fun a b => a.address < b.address
  /-- The first item is at the origin. -/
  first : ∀ item, program.items.head? = some item → item.address = program.origin
  /-- Every item begins where the one before it ends. -/
  adjacent : Adjacent (fun a b => a.end? = some (b.address : Int)) program.items
  /-- Only the last item can be one inside which the image ends. -/
  truncation : ∀ item ∈ program.items, item.IsTruncation → program.items.getLast? = some item
  /-- Where faults are stepped over, the last item ends at the end of the image, or the image ends
  inside it. -/
  last_of_skip : policy = .skip → ∀ item, program.items.getLast? = some item →
    item.end? = some (program.endAddress : Int) ∨
      item.IsTruncation ∧ item.address < program.endAddress
  /-- Where faults are not stepped over, there is at most one, and it is the last item. -/
  last_of_stop : policy = .stop → program.failures = [] ∨
    ∃ f, program.failures = [f] ∧ program.items.getLast? = some (.failure f)
  /-- Without a failure, the instructions end at the end of the image. -/
  complete : program.failures = [] →
    (program.instructions.getLast?.map Instruction.endAddress).getD program.origin =
      program.endAddress
  /-- All bytes before the place where decoding ended are covered by one item each. -/
  covered : ∃ reached, program.origin ≤ reached ∧ reached ≤ program.endAddress ∧
    (reached = program.endAddress ∨
      ∃ f, program.items.getLast? = some (.failure f) ∧ f.address = reached ∧
        (policy = .stop ∨ (Item.failure f).IsTruncation)) ∧
    ∀ address, program.origin ≤ address → address < reached →
      ∃! item, item ∈ program.items ∧ item.Covers address
  /-- Without a failure, the sizes of the instructions add up to the size of the image. -/
  size : program.failures = [] → program.size = program.data.size

theorem items_of_tiles {program : Program} (h : Tiles policy stop start items)
    (hinstructions : program.instructions = items.filterMap Item.instruction?)
    (hfailures : program.failures = items.filterMap Item.failure?) : program.items = items := by
  rw [Program.items, hinstructions, hfailures]
  exact merge_of_pairwise_lt h.pairwise_lt

theorem isTiled_of_tiles {program : Program}
    (h : Tiles policy program.endAddress program.origin items)
    (hinstructions : program.instructions = items.filterMap Item.instruction?)
    (hfailures : program.failures = items.filterMap Item.failure?) :
    IsTiled policy program := by
  have hitems := items_of_tiles h hinstructions hfailures
  constructor
  case ascending =>
    rw [hitems]
    exact h.pairwise_lt
  case first =>
    rw [hitems]
    exact h.head_address
  case adjacent =>
    rw [hitems]
    exact h.adjacent
  case truncation =>
    rw [hitems]
    exact h.getLast_of_isTruncation
  case last_of_skip =>
    intro hskip item hitem
    rw [hitems] at hitem
    rcases h.getLast_ends item hitem with hend | ⟨-, hlt, hstop | ⟨-, hnone⟩⟩
    · exact .inl hend
    · rw [hskip] at hstop
      simp at hstop
    · exact .inr ⟨Item.end?_eq_none_iff.1 hnone, hlt⟩
  case last_of_stop =>
    intro hstop
    rw [hitems, hfailures]
    exact h.failure_eq_last hstop
  case complete =>
    rw [hfailures, hinstructions]
    exact h.getLast_of_complete
  case covered =>
    obtain ⟨reached, hstart, hstop, hreached, hcovered⟩ := h.covered
    rw [hitems]
    refine ⟨reached, hstart, hstop, ?_, hcovered⟩
    rcases hreached with hreached | ⟨f, hlast, haddress, hhalt⟩
    · exact .inl hreached
    · refine .inr ⟨f, hlast, haddress, hhalt.imp_right ?_⟩
      rintro ⟨-, hnone⟩
      exact Item.end?_eq_none_iff.1 hnone
  case size =>
    intro hcomplete
    rw [hfailures] at hcomplete
    have hsize := h.size_of_complete hcomplete
    rw [← hinstructions, Program.endAddress] at hsize
    rw [Program.size]
    omega

/-- A binary that is decoded without raising a fault gives a program that is tiled: its items lie
one behind the other from the first decoded byte on, and no byte before the place where decoding
ended is lost or covered twice. -/
theorem decode_isTiled (settings : Settings.Program) (image : Image)
    (hstart : settings.start ≤ image.size) (hpolicy : settings.faultPolicy ≠ .raise) :
    ∃ decoding, decode settings image = .ok decoding ∧
      decoding.program.origin = settings.origin ∧
      decoding.program.data = image.extract settings.start image.size ∧
      IsTiled settings.faultPolicy decoding.program ∧
      (decoding.program.failures = [] →
        decoding.program.size = image.size - settings.start) := by
  rcases decode_cases settings image with
    ⟨hlt, -⟩ | ⟨-, ⟨events, program, hsweeps, hrecords, hdecode⟩ | ⟨error, -, hraise, -⟩⟩
  · omega
  · have htiles := hsweeps.tiles_program
    rw [← hrecords.origin, ← hrecords.data] at htiles
    have htiled : IsTiled settings.faultPolicy program := by
      refine isTiled_of_tiles htiles ?_ ?_
      · rw [filterMap_instruction?_eq, hrecords.instructions]
      · rw [filterMap_failure?_eq, hrecords.failures]
    refine ⟨_, hdecode, hrecords.origin, hrecords.data, htiled, fun hcomplete => ?_⟩
    rw [htiled.size hcomplete, hrecords.data, Array.size_extract]
    omega
  · exact absurd hraise hpolicy

theorem Records.items_eq {events : List Event} {program : Program}
    (h : Records settings image events program)
    (hsweeps : Sweeps settings image settings.start events) :
    program.items = events.map Event.item := by
  refine items_of_tiles hsweeps.tiles_program ?_ ?_
  · rw [filterMap_instruction?_eq, h.instructions]
  · rw [filterMap_failure?_eq, h.failures]

/-- A load and a byte of no known family, behind one byte that is not decoded, and a literal that is
cut off. -/
theorem decode_isTiled_skip :
    1 ≤ (#[0x00, 0x8B, 0x07, 0x00, 0xB0] : Image).size ∧ Settings.FaultPolicy.skip ≠ .raise ∧
      ∃ decoding load, decode { start := 1, faultPolicy := .skip } #[0x00, 0x8B, 0x07, 0x00, 0xB0] =
          .ok decoding ∧
        IsTiled .skip decoding.program ∧
        load.move = ⟨.moveRegisterMemory, ⟨.register ⟨.word, 0⟩, .memory (.bare .bx)⟩, 2⟩ ∧
        decoding.program.items = [.instruction load,
          .failure ⟨2, 3, .ofCause 5 3 (.unknownOpcode 0 4)⟩,
          .failure ⟨3, 4, .ofCause 5 4 (.truncated 8 0)⟩] := by
  let settings : Settings.Program := { start := 1, faultPolicy := .skip }
  let load : Instruction := ⟨0, 2, .moveRegisterMemory, .register ⟨.word, 0⟩, .memory (.bare .bx),
    by decide, by decide, rfl⟩
  have hsweeps : Sweeps settings #[0x00, 0x8B, 0x07, 0x00, 0xB0] 1 [.decoded load,
      .failed (failureOf settings #[0x00, 0x8B, 0x07, 0x00, 0xB0] 3 (.unknownOpcode 0 4)),
      .failed (failureOf settings #[0x00, 0x8B, 0x07, 0x00, 0xB0] 4 (.truncated 8 0))] := by
    have hskip : (Fault.ofCause 5 3 (.unknownOpcode 0 4)).skip? = some ((1 : Nat) : Int) := rfl
    exact .decoded rfl rfl (.skipped rfl rfl hskip (by decide)
      (.halted (by decide) rfl (.inr ⟨rfl, rfl⟩)))
  obtain ⟨program, hrecords, hprogram⟩ := decode_of_sweeps (by decide) hsweeps
  obtain ⟨decoding, hdecode, -, -, htiled, -⟩ :=
    decode_isTiled settings #[0x00, 0x8B, 0x07, 0x00, 0xB0] (by decide) (by decide)
  cases hprogram.symm.trans hdecode
  exact ⟨by decide, by decide, _, load, hprogram, htiled, rfl, hrecords.items_eq hsweeps⟩

end Program

end MachineCode
