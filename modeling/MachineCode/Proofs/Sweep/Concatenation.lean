import MachineCode.Proofs.BitString.Locality
import MachineCode.Proofs.Sweep.Decode
import MachineCode.Proofs.Sweep.Translation

/-!
# Concatenated binaries

Bytes that are appended to a binary change nothing of what has been decoded, because no step of a
sweep looks behind the bytes that it takes up. Only where the binary ends inside an instruction, the
appended bytes may complete it. Otherwise the sweep arrives at the end of the first part, and goes
on in the second one as if it began there.

## Main definitions

* `Program.Concatenates` : a program lists what two others list, one behind the other.
* `Program.Resumes` : a program lists what another one lists up to a failure, and more behind it.

## Main results

* `Program.Advances.append` : a part of a sweep is one with further bytes behind the image.
* `Program.decode_append` : the program of two binaries, one behind the other.
-/

namespace MachineCode

namespace ByteString

open Image

variable {settings : Settings.Decoder} {bytes : List UInt8} {offset : Nat}

/-- More bytes behind others change their outcome only where these end inside a field. -/
theorem outcome_append (h : ∀ cause, outcome settings bytes = .error cause → ¬ cause.IsTruncation)
    (more : List UInt8) : outcome settings (bytes ++ more) = outcome settings bytes := by
  simp only [← Scan.outcome_flatMap_byteBits] at h ⊢
  rw [List.flatMap_append]
  exact Scan.outcome_append (fun requested available heq => h _ heq ⟨requested, available, rfl⟩) _

theorem outcome_drop_append
    (h : ∀ cause, outcome settings (bytes.drop offset) = .error cause → ¬ cause.IsTruncation)
    (more : List UInt8) :
    outcome settings ((bytes ++ more).drop offset) = outcome settings (bytes.drop offset) := by
  have hle : offset ≤ bytes.length := by
    by_contra hlt
    have hnil : outcome settings (bytes.drop offset) = .error (.truncated 4 0) := by
      rw [List.drop_eq_nil_of_le (by omega)]
      rfl
    exact h _ hnil ⟨4, 0, rfl⟩
  rw [List.drop_append_of_le_length hle, outcome_append h]

end ByteString

theorem Fault.ofCause_of_not_isTruncation {cause : Cause} (h : ¬ cause.IsTruncation)
    (size other start : Nat) : ofCause size start cause = ofCause other start cause := by
  cases cause with
  | truncated requested available => exact absurd ⟨requested, available, rfl⟩ h
  | _ => rfl

namespace Program

variable {settings : Settings.Program} {image : Image} {offset stop : Nat} {events : List Event}

/-- A part of a sweep is one with further bytes behind the image. -/
theorem Advances.append (h : Advances settings image offset events stop) (back : Image) :
    Advances settings (image ++ back) offset events stop := by
  have houtcome : ∀ {offset : Nat} {result : Outcome},
      ByteString.outcome settings.decoder (image.toList.drop offset) = result →
        (∀ cause, result = .error cause → ¬ cause.IsTruncation) →
        ByteString.outcome settings.decoder ((image ++ back).toList.drop offset) = result := by
    rintro offset result rfl h
    rw [Array.toList_append]
    exact ByteString.outcome_drop_append h _
  induction h with
  | refl => exact .refl _
  | decoded outcome address rest ih =>
    exact .decoded (houtcome outcome fun cause heq => by cases heq) address ih
  | @skipped offset count stop cause events outcome policy skip pos rest ih =>
    have hcause := not_isTruncation_of_skip? skip
    have hfault := Fault.ofCause_of_not_isTruncation hcause image.size (image ++ back).size offset
    rw [hfault] at skip
    rw [failureOf, hfault]
    refine .skipped (houtcome outcome ?_) policy skip pos ih
    rintro cause ⟨⟩
    exact hcause

theorem Sweeps.offset_le (h : Sweeps settings image offset events) :
    ∀ f ∈ events.filterMap Event.failure?, offset ≤ f.offset := by
  induction h with
  | done => simp
  | decoded outcome address rest ih =>
    intro f hf
    have := ih f hf
    omega
  | skipped outcome policy skip pos rest ih =>
    intro f hf
    rcases List.mem_cons.1 hf with rfl | hf
    · exact Nat.le_refl _
    · have := ih f hf
      omega
  | halted lt outcome halt =>
    intro f hf
    rw [List.mem_singleton.1 hf]
    exact Nat.le_refl _

theorem Sweeps.addressAt_le (h : Sweeps settings image offset events)
    (hstart : settings.start ≤ offset) :
    ∀ i ∈ events.filterMap Event.instruction?, settings.addressAt offset ≤ i.address := by
  intro i hi
  rw [← filterMap_instruction?_eq] at hi
  obtain ⟨item, hitem, hi⟩ := List.mem_filterMap.1 hi
  have hbounds := (h.tiles hstart).address_bounds item hitem
  cases item <;> cases hi
  exact hbounds.1

/-! ### Two binaries, one behind the other -/

/-- A sweep over the first of two binaries is part of one over both. It arrives at the end of the
first one, and the sweep over both goes on as in the second one. Or it ends at a failure, and the
sweep over both finds something else there. -/
theorem Sweeps.append_cases {front back : Image} {others : List Event}
    (hstart : settings.start = 0) (hpolicy : settings.faultPolicy ≠ .raise)
    (h : Sweeps settings front settings.start events)
    (hothers : Sweeps settings back settings.start others) :
    (∀ f ∈ events.filterMap Event.failure?, ¬ f.fault.cause.IsTruncation) ∧
        Sweeps settings (front ++ back) settings.start
          (events ++ others.map (Event.shift front.size front.size)) ∨
      ∃ begun stop cause later,
        events = begun ++ [.failed (failureOf settings front stop cause)] ∧
        (settings.faultPolicy = .skip → cause.IsTruncation) ∧
        (∀ f ∈ begun.filterMap Event.failure?, ¬ f.fault.cause.IsTruncation) ∧
        Sweeps settings (front ++ back) settings.start (begun ++ later) ∧
        Sweeps settings (front ++ back) stop later := by
  rcases h.exists_advances with hall | ⟨begun, stop, cause, hbegun, hlt, -, hhalt, rfl⟩
  · have htranslation :
        Translation settings back settings (front ++ back) front.toList front.size :=
      ⟨rfl, rfl, Array.toList_append, hstart, by simp [hstart], by simp [hstart]⟩
    have hshifted := hothers.shift htranslation
    rw [hstart, Nat.zero_add] at hshifted
    exact .inl ⟨hall.not_isTruncation, (hall.append back).sweeps hshifted⟩
  · obtain ⟨later, hlater⟩ : ∃ later, Sweeps settings (front ++ back) stop later :=
      exists_sweeps hpolicy hbegun.le (by rw [Array.size_append]; omega)
    refine .inr ⟨begun, stop, cause, later, rfl, fun hskip => ?_, hbegun.not_isTruncation,
      (hbegun.append back).sweeps hlater, hlater⟩
    rcases hhalt with hstop | ⟨-, hhalt⟩
    · rw [hskip] at hstop
      cases hstop
    · exact Fault.skip?_eq_none_iff.1 hhalt

/-- A program lists what `first` lists, and behind it what `second` lists, at the places behind
`size` further bytes. -/
structure Concatenates (size : Nat) (first second whole : Program) : Prop where
  instructions : whole.instructions =
    first.instructions ++ second.instructions.map (Instruction.shift size)
  failures : whole.failures = first.failures ++ second.failures.map (Failure.shift size size)
  /-- The messages name the places behind the further bytes. -/
  messages : whole.failures.map (fun f => f.fault.message) =
    first.failures.map (fun f => f.fault.message) ++ second.failures.map fun f =>
      f.fault.cause.text ++ " at offset " ++ Numeral.offset (f.fault.offset + size)
  /-- So do the notes. -/
  notes : whole.failures.map (fun f => f.fault.notes) =
    first.failures.map (fun f => f.fault.notes) ++ second.failures.map fun f =>
      f.fault.starts.map fun start => Fault.startText (start + size)
  names : ∀ f ∈ whole.failures, f.fault.NamesPlaces

/-- A program lists what `first` lists up to its last failure `f`, and nothing more that lies in
front of it. -/
structure Resumes (f : Failure) (first whole : Program) : Prop where
  address : f.address = whole.origin + f.offset
  instructions : ∃ later, whole.instructions = first.instructions ++ later ∧
    ∀ i ∈ later, whole.origin + f.offset ≤ i.address
  failures : ∃ others later, first.failures = others ++ [f] ∧ whole.failures = others ++ later ∧
    ∀ g ∈ later, f.offset ≤ g.offset

theorem Records.concatenates {image₁ image₂ : Image} {others : List Event}
    {first second whole : Program} (hfirst : Records settings image₁ events first)
    (hsecond : Records settings image₂ others second) {size : Nat}
    (hwhole : Records settings image (events ++ others.map (Event.shift size size)) whole)
    (hsweeps : Sweeps settings image settings.start
      (events ++ others.map (Event.shift size size))) :
    Concatenates size first second whole := by
  have hfailures : whole.failures =
      first.failures ++ second.failures.map (Failure.shift size size) := by
    rw [hwhole.failures, hfirst.failures, hsecond.failures, List.filterMap_append,
      filterMap_failure?_shift]
  refine ⟨?_, hfailures, ?_, ?_, hwhole.failures ▸ hsweeps.namesPlaces⟩
  · rw [hwhole.instructions, hfirst.instructions, hsecond.instructions, List.filterMap_append,
      filterMap_instruction?_shift]
  · simp only [hfailures, List.map_append, List.map_map, Function.comp_def, Failure.fault_shift,
      Fault.message_shift]
  · simp only [hfailures, List.map_append, List.map_map, Function.comp_def, Failure.fault_shift,
      Fault.notes_shift]

theorem Records.resumes {other : Image} {cause : Fault.Cause} {later : List Event}
    {first whole : Program} (hstart : settings.start = 0)
    (hfirst : Records settings image
      (events ++ [.failed (failureOf settings image stop cause)]) first)
    (hwhole : Records settings other (events ++ later) whole)
    (hlater : Sweeps settings other stop later) :
    Resumes (failureOf settings image stop cause) first whole := by
  have haddress : settings.addressAt stop = whole.origin + stop := by
    rw [Settings.Program.addressAt, hstart, hwhole.origin, Nat.sub_zero]
  have hstop : settings.start ≤ stop := by simp [hstart]
  constructor
  · exact haddress
  · refine ⟨later.filterMap Event.instruction?, ?_, ?_⟩
    · rw [hwhole.instructions, hfirst.instructions, List.filterMap_append, List.filterMap_append]
      exact congrArg (· ++ _) (List.append_nil _).symm
    · exact haddress ▸ hlater.addressAt_le hstop
  · refine ⟨events.filterMap Event.failure?, later.filterMap Event.failure?, ?_, ?_,
      hlater.offset_le⟩
    · rw [hfirst.failures, List.filterMap_append]
      rfl
    · rw [hwhole.failures, List.filterMap_append]

/-- Bytes behind a binary change nothing of what has been decoded. Where the first part does not end
inside an instruction, the whole is decoded to what its parts are decoded to. Otherwise, everything
in front of the truncated instruction is kept. Where faults are not stepped over, the first part
must be decoded without one. -/
theorem decode_append (settings : Settings.Program) (front back : Image)
    (hstart : settings.start = 0) (hpolicy : settings.faultPolicy ≠ .raise) :
    ∃ first second whole, decode settings front = .ok first ∧ decode settings back = .ok second ∧
      decode settings (front ++ back) = .ok whole ∧
      (settings.faultPolicy = .skip →
        ((∀ f ∈ first.program.failures, ¬ f.fault.cause.IsTruncation) →
          Concatenates front.size first.program second.program whole.program) ∧
        ∀ f ∈ first.program.failures, f.fault.cause.IsTruncation →
          Resumes f first.program whole.program) ∧
      (first.program.failures = [] →
        Concatenates front.size first.program second.program whole.program) := by
  have hle : ∀ offset, settings.start ≤ offset := by simp [hstart]
  have hexists : ∀ image, ∃ events, Sweeps settings image settings.start events :=
    fun image => exists_sweeps hpolicy (Nat.le_refl _) (hle _)
  obtain ⟨events, hevents⟩ := hexists front
  obtain ⟨others, hothers⟩ := hexists back
  obtain ⟨first, hfirst, hdecode⟩ := decode_of_sweeps (hle _) hevents
  obtain ⟨second, hsecond, hdecodeSecond⟩ := decode_of_sweeps (hle _) hothers
  rcases hevents.append_cases hstart hpolicy hothers with
    ⟨hnone, hsweeps⟩ | ⟨begun, stop, cause, later, rfl, hcause, hnone, hsweeps, hlater⟩
  · obtain ⟨whole, hwhole, hdecodeWhole⟩ := decode_of_sweeps (hle _) hsweeps
    rw [← hfirst.failures] at hnone
    have hconcatenates := hfirst.concatenates hsecond hwhole hsweeps
    exact ⟨_, _, _, hdecode, hdecodeSecond, hdecodeWhole, fun _ =>
      ⟨fun _ => hconcatenates, fun f hf htruncation => absurd htruncation (hnone f hf)⟩,
      fun _ => hconcatenates⟩
  · obtain ⟨whole, hwhole, hdecodeWhole⟩ := decode_of_sweeps (hle _) hsweeps
    have hfailures : first.failures =
        begun.filterMap Event.failure? ++ [failureOf settings front stop cause] := by
      rw [hfirst.failures, List.filterMap_append]
      rfl
    refine ⟨_, _, _, hdecode, hdecodeSecond, hdecodeWhole,
      fun hskip => ⟨fun hnot => ?_, fun f hf htruncation => ?_⟩, fun hempty => ?_⟩
    · refine absurd (hcause hskip) (hnot (failureOf settings front stop cause) ?_)
      rw [hfailures]
      exact List.mem_append_right _ List.mem_cons_self
    · rw [hfailures] at hf
      rcases List.mem_append.1 hf with hf | hf
      · exact absurd htruncation (hnone f hf)
      · rw [List.mem_singleton.1 hf]
        exact hfirst.resumes hstart hwhole hlater
    · rw [hfailures] at hempty
      simp at hempty

/-- Behind a move from `bx` to `ax` comes a byte of no known family, which stays one with more bytes
behind it, or the opcode of a load, which does not. -/
theorem decode_append_move :
    (∃ first second whole, decode { faultPolicy := .skip } #[0x89, 0xD8, 0x00] = .ok first ∧
        decode { faultPolicy := .skip } #[0x07] = .ok second ∧
        decode { faultPolicy := .skip } #[0x89, 0xD8, 0x00, 0x07] = .ok whole ∧
        Concatenates 3 first.program second.program whole.program) ∧
      ∃ first whole f, decode { faultPolicy := .skip } #[0x89, 0xD8, 0x8B] = .ok first ∧
        decode { faultPolicy := .skip } #[0x89, 0xD8, 0x8B, 0x07] = .ok whole ∧
        f ∈ first.program.failures ∧ f.fault.cause = .truncated 2 0 ∧
        Resumes f first.program whole.program := by
  let settings : Settings.Program := { faultPolicy := .skip }
  let i : Instruction := ⟨0, 2, .moveRegisterMemory, .register ⟨.word, 0⟩, .register ⟨.word, 3⟩,
    by decide, by decide, rfl⟩
  constructor
  · obtain ⟨first, second, whole, hfirst, hsecond, hwhole, hskip, -⟩ :=
      decode_append settings #[0x89, 0xD8, 0x00] #[0x07] rfl (by decide)
    refine ⟨first, second, whole, hfirst, hsecond, hwhole, (hskip rfl).1 ?_⟩
    have hsweeps : Sweeps settings #[0x89, 0xD8, 0x00] 0
        [.decoded i, .failed (failureOf settings #[0x89, 0xD8, 0x00] 2 (.unknownOpcode 0 4))] := by
      have hskip : (Fault.ofCause 3 2 (.unknownOpcode 0 4)).skip? = some ((1 : Nat) : Int) := rfl
      exact .decoded rfl rfl (.skipped rfl rfl hskip (by decide) .done)
    obtain ⟨program, hrecords, hdecode⟩ := decode_of_sweeps (Nat.zero_le _) hsweeps
    rw [hfirst] at hdecode
    cases hdecode
    rw [hrecords.failures]
    intro f hf
    rw [List.mem_singleton.1 hf]
    rintro ⟨requested, available, ⟨⟩⟩
  · obtain ⟨first, second, whole, hfirst, -, hwhole, hskip, -⟩ :=
      decode_append settings #[0x89, 0xD8, 0x8B] #[0x07] rfl (by decide)
    have hsweeps : Sweeps settings #[0x89, 0xD8, 0x8B] 0 (.decoded i ::
        [.failed (failureOf settings #[0x89, 0xD8, 0x8B] 2 (.truncated 2 0))]) :=
      .decoded rfl rfl (.halted (by decide) rfl (.inr ⟨rfl, rfl⟩))
    obtain ⟨program, hrecords, hdecode⟩ := decode_of_sweeps (Nat.zero_le _) hsweeps
    rw [hfirst] at hdecode
    cases hdecode
    have hmem : failureOf settings #[0x89, 0xD8, 0x8B] 2 (.truncated 2 0) ∈ program.failures := by
      rw [hrecords.failures]
      exact List.mem_cons_self
    exact ⟨_, whole, _, hfirst, hwhole, hmem, rfl, (hskip rfl).2 _ hmem ⟨2, 0, rfl⟩⟩

end Program

end MachineCode
