import MachineCode.Proofs.Sweep.Step

/-!
# Runs of a sweep

A run of a sweep is told by the bytes that are left: at each byte it reaches, what they decode to
and what is made of it. This file states it as a relation between an offset and the events from
there on. Every sweep has such a run, or ends with the fault of an instruction where the settings
ask for it. What a run leaves in the log is told by its failures: every one of them is warned of
when it is recorded, and a notice of the last one follows where decoding ends there.

## Main definitions

* `Program.Sweeps` : the events from an offset on.
* `Program.Advances` : the events between two offsets.
* `Settings.FaultPolicy.EndsAt` : decoding ends at a failure, where it is the last one.
* `Program.messagesOf` : the messages that failures call for.

## Main results

* `Program.sweeps_or_raises` : a sweep has a run or raises a fault.
* `Program.eventsFrom_of_sweeps` : a sweep finds the events of its run and leaves the messages that
  its failures call for.
-/

namespace MachineCode

/-- Whether a cause is a truncation is seen from it. -/
instance Fault.Cause.IsTruncation.decidable : (cause : Cause) → Decidable cause.IsTruncation
  | .truncated requested available => isTrue ⟨requested, available, rfl⟩
  | .unknownOpcode _ _ => isFalse fun ⟨_, _, h⟩ => nomatch h
  | .unimplemented _ _ => isFalse fun ⟨_, _, h⟩ => nomatch h
  | .other _ => isFalse fun ⟨_, _, h⟩ => nomatch h

/-- Decoding ends at a failure if no fault is stepped over, or if this one cannot be. -/
def Settings.FaultPolicy.EndsAt (policy : FaultPolicy) (f : Failure) : Prop :=
  policy = .stop ∨ policy = .skip ∧ f.fault.cause.IsTruncation

instance Settings.FaultPolicy.EndsAt.decidable (policy : FaultPolicy) (f : Failure) :
    Decidable (policy.EndsAt f) :=
  inferInstanceAs (Decidable (_ ∨ _))

namespace Program

/-- The messages that failures call for: one warning for each of them, and behind these the notice
of the last one, if decoding ends there. -/
def messagesOf (policy : Settings.FaultPolicy) (failures : List Failure) : List Log.Message :=
  failures.map Failure.warning ++
    (failures.getLast?.filter fun f => policy.EndsAt f).toList.map Failure.notice

/-- The events of a sweep from an offset on. -/
inductive Sweeps (settings : Settings.Program) (image : Image) : Nat → List Event → Prop
  /-- The image is at its end. -/
  | done : Sweeps settings image image.size []
  /-- The bytes decode, and the sweep goes on behind the instruction. -/
  | decoded {offset : Nat} {i : Instruction} {events : List Event}
      (outcome : ByteString.outcome settings.decoder (image.toList.drop offset) = .ok i.move)
      (address : i.address = settings.addressAt offset)
      (rest : Sweeps settings image (offset + i.size) events) :
      Sweeps settings image offset (.decoded i :: events)
  /-- The bytes do not decode, and the sweep goes on behind those that it can step over. -/
  | skipped {offset count : Nat} {cause : Fault.Cause} {events : List Event}
      (outcome : ByteString.outcome settings.decoder (image.toList.drop offset) = .error cause)
      (policy : settings.faultPolicy = .skip)
      (skip : (Fault.ofCause image.size offset cause).skip? = some (count : Int)) (pos : 1 ≤ count)
      (rest : Sweeps settings image (offset + count) events) :
      Sweeps settings image offset (.failed (failureOf settings image offset cause) :: events)
  /-- The bytes do not decode, and the sweep ends. -/
  | halted {offset : Nat} {cause : Fault.Cause} (lt : offset < image.size)
      (outcome : ByteString.outcome settings.decoder (image.toList.drop offset) = .error cause)
      (halt : settings.faultPolicy = .stop ∨ settings.faultPolicy = .skip ∧
        (Fault.ofCause image.size offset cause).skip? = none) :
      Sweeps settings image offset
        [.failed (failureOf settings image offset cause)]

variable {settings : Settings.Program} {image : Image}

/-- A sweep that raises ends with the fault of bytes that do not decode. -/
def Raises (settings : Settings.Program) (image : Image) (error : Error) : Prop :=
  settings.faultPolicy = .raise ∧ ∃ offset cause, settings.start ≤ offset ∧ offset < image.size ∧
    ByteString.outcome settings.decoder (image.toList.drop offset) = .error cause ∧
    error = .decode (.ofCause image.size offset cause)

theorem atEnd_iff {reader : BitReader image} {offset : Nat} (h : reader.position = 8 * offset) :
    reader.atEnd = true ↔ image.size ≤ offset := by
  rw [BitReader.atEnd, BitReader.remaining, Image.bitSize, beq_iff_eq]
  omega

/-- A sweep that is not at the end goes on with a step, and with what comes behind it. -/
theorem eventsFrom_of_lt {reader : BitReader image} {offset : Nat}
    (hposition : reader.position = 8 * offset) (hlt : offset < image.size) :
    eventsFrom settings reader =
      match (step settings reader).outcome with
      | .error error => ⟨(step settings reader).messages, .error error⟩
      | .ok (.finish failure) => ⟨(step settings reader).messages, .ok [.failed failure]⟩
      | .ok (.proceed event next _) =>
        ⟨(step settings reader).messages ++ (eventsFrom settings next).messages,
          (eventsFrom settings next).outcome.map (event :: ·)⟩ := by
  have hend : ¬ reader.atEnd = true := mt (atEnd_iff hposition).1 hlt.not_ge
  rw [eventsFrom, if_neg hend]
  obtain ⟨messages, error | ⟨event, next, lt⟩ | failure⟩ := step settings reader
  · rfl
  · rw [Logged.ok_bind]
    simp only [Logged.bind_pure]
  · exact congrArg (Logged.mk · _) (List.append_nil messages)

/-- A sweep from the first bit of a byte has a run, or raises a fault and leaves no message. -/
theorem sweeps_or_raises {reader : BitReader image} {offset : Nat}
    (hposition : reader.position = 8 * offset) (hstart : settings.start ≤ offset)
    (hle : offset ≤ image.size) :
    (∃ events, Sweeps settings image offset events) ∨
      ∃ error, eventsFrom settings reader = ⟨[], .error error⟩ ∧ Raises settings image error := by
  -- the induction is on the number of bytes that are left
  induction hleft : image.size - offset using Nat.strong_induction_on
    generalizing reader offset with
  | _ left ih =>
    rcases hle.eq_or_lt with rfl | hlt
    · exact .inl ⟨[], .done⟩
    rcases step_cases hposition hstart hlt with
      ⟨i, next, lt, houtcome, haddress, hend, hstep, hnext⟩ | ⟨cause, houtcome, hcases⟩
    · have hpos := i.one_le_size
      rcases ih (image.size - (offset + i.size)) (by omega) hnext (by omega) hend rfl with
        ⟨events, hrun⟩ | ⟨error, herror, hraises⟩
      · exact .inl ⟨_, .decoded houtcome haddress hrun⟩
      · refine .inr ⟨error, ?_, hraises⟩
        rw [eventsFrom_of_lt hposition hlt, hstep]
        simp only [herror]
        rfl
    · rcases hcases with ⟨count, next, lt, hpolicy, hskip, hpos, hend, -, hnext⟩ |
        ⟨hhalt, -⟩ | ⟨hraise, hstep⟩
      · rcases ih (image.size - (offset + count)) (by omega) hnext (by omega) hend rfl with
          ⟨events, hrun⟩ | ⟨error, -, hraise, -⟩
        · exact .inl ⟨_, .skipped houtcome hpolicy hskip hpos hrun⟩
        · cases hpolicy.symm.trans hraise
      · exact .inl ⟨_, .halted hlt houtcome hhalt⟩
      · refine .inr ⟨_, ?_, hraise, offset, cause, hstart, hlt, houtcome, rfl⟩
        rw [eventsFrom_of_lt hposition hlt, hstep]

theorem exists_sweeps {offset : Nat} (hpolicy : settings.faultPolicy ≠ .raise)
    (hstart : settings.start ≤ offset) (hle : offset ≤ image.size) :
    ∃ events, Sweeps settings image offset events := by
  obtain ⟨reader, -, hposition⟩ := BitReader.atByte?_zero hle
  rcases sweeps_or_raises hposition hstart hle with hsweeps | ⟨error, -, hraise, -⟩
  · exact hsweeps
  · exact absurd hraise hpolicy

/-! ### Parts of a run -/

theorem not_isTruncation_of_skip? {size start : Nat} {cause : Fault.Cause} {count : Int}
    (h : (Fault.ofCause size start cause).skip? = some count) : ¬ cause.IsTruncation := by
  intro htruncation
  rw [Fault.skip?_eq_none_iff.2 htruncation] at h
  cases h

/-- A part of a sweep: it comes from one offset to another and records events on the way. -/
inductive Advances (settings : Settings.Program) (image : Image) :
    Nat → List Event → Nat → Prop
  /-- The sweep has not moved yet. -/
  | refl (offset : Nat) : Advances settings image offset [] offset
  /-- The bytes decode, and the sweep goes on behind the instruction. -/
  | decoded {offset stop : Nat} {i : Instruction} {events : List Event}
      (outcome : ByteString.outcome settings.decoder (image.toList.drop offset) = .ok i.move)
      (address : i.address = settings.addressAt offset)
      (rest : Advances settings image (offset + i.size) events stop) :
      Advances settings image offset (.decoded i :: events) stop
  /-- The bytes do not decode, and the sweep goes on behind those that it can step over. -/
  | skipped {offset count stop : Nat} {cause : Fault.Cause} {events : List Event}
      (outcome : ByteString.outcome settings.decoder (image.toList.drop offset) = .error cause)
      (policy : settings.faultPolicy = .skip)
      (skip : (Fault.ofCause image.size offset cause).skip? = some (count : Int)) (pos : 1 ≤ count)
      (rest : Advances settings image (offset + count) events stop) :
      Advances settings image offset (.failed (failureOf settings image offset cause) :: events)
        stop

/-- A run goes on to the end of the image or to bytes at which it ends. -/
theorem Sweeps.exists_advances {offset : Nat} {events : List Event}
    (h : Sweeps settings image offset events) :
    Advances settings image offset events image.size ∨
      ∃ front stop cause, Advances settings image offset front stop ∧ stop < image.size ∧
        ByteString.outcome settings.decoder (image.toList.drop stop) = .error cause ∧
        (settings.faultPolicy = .stop ∨ settings.faultPolicy = .skip ∧
          (Fault.ofCause image.size stop cause).skip? = none) ∧
        events = front ++ [.failed (failureOf settings image stop cause)] := by
  induction h with
  | done => exact .inl (.refl _)
  | decoded outcome address rest ih =>
    rcases ih with ih | ⟨front, stop, cause, ih, hstop⟩
    · exact .inl (.decoded outcome address ih)
    · obtain ⟨hlt, houtcome, hhalt, rfl⟩ := hstop
      exact .inr ⟨_ :: front, stop, cause, .decoded outcome address ih, hlt, houtcome, hhalt, rfl⟩
  | skipped outcome policy skip pos rest ih =>
    rcases ih with ih | ⟨front, stop, cause, ih, hstop⟩
    · exact .inl (.skipped outcome policy skip pos ih)
    · obtain ⟨hlt, houtcome, hhalt, rfl⟩ := hstop
      exact .inr ⟨_ :: front, stop, cause, .skipped outcome policy skip pos ih, hlt, houtcome,
        hhalt, rfl⟩
  | halted lt outcome halt => exact .inr ⟨[], _, _, .refl _, lt, outcome, halt, rfl⟩

namespace Advances

variable {offset stop : Nat} {events : List Event}

theorem le (h : Advances settings image offset events stop) : offset ≤ stop := by
  induction h with
  | refl => exact Nat.le_refl _
  | decoded outcome address rest ih => omega
  | skipped outcome policy skip pos rest ih => omega

theorem sweeps {rest : List Event} (h : Advances settings image offset events stop)
    (hrest : Sweeps settings image stop rest) : Sweeps settings image offset (events ++ rest) := by
  induction h with
  | refl => exact hrest
  | decoded outcome address _ ih => exact .decoded outcome address (ih hrest)
  | skipped outcome policy skip pos _ ih => exact .skipped outcome policy skip pos (ih hrest)

theorem sweeps_of_size (h : Advances settings image offset events image.size) :
    Sweeps settings image offset events := by
  have hsweeps := h.sweeps .done
  rwa [List.append_nil] at hsweeps

/-- A sweep whose first part is given goes on from where that part ends. Up to there it leaves a
warning for every failure. -/
theorem eventsFrom_eq (h : Advances settings image offset events stop) {reader : BitReader image}
    (hposition : reader.position = 8 * offset) (hstart : settings.start ≤ offset) :
    ∃ last : BitReader image, last.position = 8 * stop ∧
      eventsFrom settings reader =
        ⟨(events.filterMap Event.failure?).map Failure.warning ++
          (eventsFrom settings last).messages,
          (eventsFrom settings last).outcome.map (events ++ ·)⟩ := by
  induction h generalizing reader with
  | refl =>
    refine ⟨reader, hposition, ?_⟩
    obtain ⟨messages, outcome⟩ := eventsFrom settings reader
    cases outcome <;> rfl
  | @decoded offset stop i events outcome address rest ih =>
    have hpos := i.one_le_size
    have hle := ByteString.add_size_le_of_outcome outcome
    obtain ⟨j, next, lt, hstep, haddress, hmove, hnext⟩ := step_of_move hposition hstart outcome
    have hij := Instruction.eq_of_move (haddress.trans address.symm) hmove
    subst hij
    obtain ⟨last, hlast, hevents⟩ := ih hnext (by omega)
    refine ⟨last, hlast, ?_⟩
    rw [eventsFrom_of_lt hposition (by omega), hstep]
    simp only [hevents]
    cases (eventsFrom settings last).outcome <;> rfl
  | @skipped offset count stop cause events outcome policy skip pos rest ih =>
    have hle := ByteString.add_le_of_skip? outcome skip
    obtain ⟨next, lt, hstep, hnext⟩ := step_of_skip hposition hstart hle outcome policy skip
    obtain ⟨last, hlast, hevents⟩ := ih hnext (by omega)
    refine ⟨last, hlast, ?_⟩
    rw [eventsFrom_of_lt hposition (by omega), hstep]
    simp only [hevents]
    cases (eventsFrom settings last).outcome <;> rfl

theorem failures_eq_nil (h : Advances settings image offset events stop)
    (hpolicy : settings.faultPolicy ≠ .skip) : events.filterMap Event.failure? = [] := by
  induction h with
  | refl => rfl
  | decoded outcome address rest ih => exact ih
  | skipped outcome policy skip pos rest ih => exact absurd policy hpolicy

/-- A sweep goes on behind its failures only where the image does not end. -/
theorem not_isTruncation (h : Advances settings image offset events stop) :
    ∀ f ∈ events.filterMap Event.failure?, ¬ f.fault.cause.IsTruncation := by
  induction h with
  | refl => simp
  | decoded outcome address rest ih => exact ih
  | @skipped offset count stop cause events outcome policy skip pos rest ih =>
    intro f hf
    rcases List.mem_cons.1 hf with rfl | hf
    · exact not_isTruncation_of_skip? skip
    · exact ih f hf

theorem not_endsAt (h : Advances settings image offset events stop) :
    ∀ f ∈ events.filterMap Event.failure?, ¬ settings.faultPolicy.EndsAt f := by
  rintro f hf (hstop | ⟨hskip, htruncation⟩)
  · rw [h.failures_eq_nil (by rw [hstop]; decide)] at hf
    cases hf
  · exact h.not_isTruncation f hf htruncation

end Advances

/-! ### The messages of a run -/

theorem messagesOf_of_not_endsAt {policy : Settings.FaultPolicy} {failures : List Failure}
    (h : ∀ f ∈ failures, ¬ policy.EndsAt f) :
    messagesOf policy failures = failures.map Failure.warning := by
  have hnone : failures.getLast?.filter (fun f => policy.EndsAt f) = none := by
    rw [Option.filter_eq_none_iff]
    intro f hf
    simpa using h f (List.mem_of_getLast? hf)
  rw [messagesOf, hnone]
  exact List.append_nil _

theorem messagesOf_concat_of_endsAt {policy : Settings.FaultPolicy} {f : Failure}
    (h : policy.EndsAt f) (failures : List Failure) :
    messagesOf policy (failures ++ [f]) =
      failures.map Failure.warning ++ [f.warning, f.notice] := by
  rw [messagesOf, List.getLast?_concat, Option.filter_some_pos (by simpa using h), List.map_append,
    List.append_assoc]
  rfl

/-- The events of a run are those of the sweep, and its messages are those that its failures call
for. -/
theorem eventsFrom_of_sweeps {offset : Nat} {events : List Event}
    (h : Sweeps settings image offset events) {reader : BitReader image}
    (hposition : reader.position = 8 * offset) (hstart : settings.start ≤ offset) :
    eventsFrom settings reader =
      ⟨messagesOf settings.faultPolicy (events.filterMap Event.failure?), .ok events⟩ := by
  rcases h.exists_advances with hall | ⟨front, stop, cause, hfront, hlt, houtcome, hhalt, rfl⟩
  · obtain ⟨last, hlast, hevents⟩ := hall.eventsFrom_eq hposition hstart
    have hend : eventsFrom settings last = ⟨[], .ok []⟩ := by
      rw [eventsFrom, if_pos ((atEnd_iff hlast).2 (Nat.le_refl _))]
      rfl
    rw [hevents, hend, messagesOf_of_not_endsAt hall.not_endsAt, List.append_nil, Except.map,
      List.append_nil]
  · obtain ⟨last, hlast, hevents⟩ := hfront.eventsFrom_eq hposition hstart
    have hpolicy : settings.faultPolicy ≠ .raise := by
      rcases hhalt with hhalt | ⟨hhalt, -⟩ <;>
        · rw [hhalt]
          decide
    have hstep := step_of_halt hlast (hstart.trans hfront.le) houtcome hpolicy
      (hhalt.imp_right And.right)
    have hends : settings.faultPolicy.EndsAt (failureOf settings image stop cause) :=
      hhalt.imp_right (And.imp_right Fault.skip?_eq_none_iff.1)
    rw [hevents, eventsFrom_of_lt hlast hlt, hstep, List.filterMap_append]
    exact congrArg (Logged.mk · _) (messagesOf_concat_of_endsAt hends _).symm

end Program

end MachineCode
