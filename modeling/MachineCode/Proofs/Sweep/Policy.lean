import MachineCode.Proofs.Sweep.Decode

/-!
# Fault policies

What is done about a fault matters only where there is one. Up to its first fault a sweep does the
same under every policy: it decodes instructions one behind the other. From there on the policies
part: the sweep goes on behind the fault, it ends with a record of the fault, or the fault is its
result.

## Main definitions

* `Settings.Program.withPolicy` : the same settings under another policy.
* `Program.PoliciesAgree` : what the results under the three policies have in common.

## Main results

* `Program.Sweeps.cases_failure` : a run up to its first failure.
* `Program.decode_policies` : the three policies agree on every binary.
-/

namespace MachineCode

/-- The same settings under another policy. -/
def Settings.Program.withPolicy (settings : Settings.Program) (policy : FaultPolicy) :
    Settings.Program :=
  { settings with faultPolicy := policy }

namespace Program

variable {settings : Settings.Program} {image : Image} {offset stop : Nat} {events : List Event}

/-! ### Runs up to the first failure -/

/-- A run has no failures and goes on to the end of the image, or it has a first one, up to which it
goes on. -/
theorem Sweeps.cases_failure (h : Sweeps settings image offset events) :
    (events.filterMap Event.failure? = [] ∧ Advances settings image offset events image.size) ∨
      ∃ front back stop cause, Advances settings image offset front stop ∧
        front.filterMap Event.failure? = [] ∧ stop < image.size ∧
        ByteString.outcome settings.decoder (image.toList.drop stop) = .error cause ∧
        events = front ++ .failed (failureOf settings image stop cause) :: back := by
  induction h with
  | done => exact .inl ⟨rfl, .refl _⟩
  | decoded outcome address rest ih =>
    rcases ih with ⟨hnone, ih⟩ | ⟨front, back, stop, cause, ih, hnone, hlt, houtcome, rfl⟩
    · exact .inl ⟨hnone, .decoded outcome address ih⟩
    · exact .inr ⟨_ :: front, back, stop, cause, .decoded outcome address ih, hnone, hlt, houtcome,
        rfl⟩
  | @skipped offset count cause events outcome policy skip pos rest ih =>
    have hle := ByteString.add_le_of_skip? outcome skip
    exact .inr ⟨[], events, offset, cause, .refl _, rfl, by omega, outcome, rfl⟩
  | @halted offset cause lt outcome halt =>
    exact .inr ⟨[], _, offset, cause, .refl _, rfl, lt, outcome, rfl⟩

/-- A part of a sweep without failures is one under every policy. -/
theorem Advances.withPolicy (h : Advances settings image offset events stop)
    (hnone : events.filterMap Event.failure? = []) (policy : Settings.FaultPolicy) :
    Advances (settings.withPolicy policy) image offset events stop := by
  induction h with
  | refl => exact .refl _
  | decoded outcome address rest ih => exact .decoded outcome address (ih hnone)
  | skipped outcome policy skip pos rest ih => cases hnone

/-- The fault at which a sweep without failures arrives is the result where the settings say so. -/
theorem Advances.decode_eq_error {cause : Fault.Cause} (hstart : settings.start ≤ image.size)
    (h : Advances settings image settings.start events stop) (hlt : stop < image.size)
    (houtcome : ByteString.outcome settings.decoder (image.toList.drop stop) = .error cause)
    (hpolicy : settings.faultPolicy = .raise) :
    decode settings image = .error (.decode (.ofCause image.size stop cause)) := by
  obtain ⟨reader, hreader, hposition⟩ := BitReader.atByte?_zero hstart
  obtain ⟨last, hlast, hevents⟩ := h.eventsFrom_eq hposition (Nat.le_refl _)
  have herror : (Program.events settings image).outcome =
      .error (.decode (.ofCause image.size stop cause)) := by
    rw [Program.events, if_pos hstart, hreader]
    dsimp only
    rw [hevents, eventsFrom_of_lt hlast hlt, step_of_raise hlast h.le houtcome hpolicy]
    rfl
  rw [decode, run, Logged.bind_of_outcome_error herror]
  rfl

/-! ### Programs of runs -/

theorem Records.eq {other : Settings.Program} {program result : Program}
    (h : Records settings image events program) (hresult : Records other image events result)
    (horigin : settings.origin = other.origin) (hstart : settings.start = other.start) :
    program = result := by
  obtain ⟨h₁, h₂, h₃, h₄⟩ := h
  obtain ⟨g₁, g₂, g₃, g₄⟩ := hresult
  rw [← horigin, ← h₁] at g₁
  rw [← hstart, ← h₂] at g₂
  rw [← h₃] at g₃
  rw [← h₄] at g₄
  cases program
  cases result
  cases g₁
  cases g₂
  cases g₃
  cases g₄
  rfl

theorem mem_items_of_mem_instructions {i : Instruction}
    (h : i ∈ events.filterMap Event.instruction?) :
    .instruction i ∈ events.map Event.item := by
  obtain ⟨event, hevent, hi⟩ := List.mem_filterMap.1 h
  cases event <;> cases hi
  exact List.mem_map_of_mem hevent

/-- Instructions of a run in front of a failure have lower addresses, the ones behind it higher
ones. -/
theorem Sweeps.address_lt_of_failure {front back : List Event} {f : Failure}
    (h : Sweeps settings image settings.start (front ++ .failed f :: back)) :
    (∀ i ∈ front.filterMap Event.instruction?, i.address < f.address) ∧
      ∀ i ∈ back.filterMap Event.instruction?, f.address < i.address := by
  have hitems := h.tiles_program.pairwise_lt
  rw [List.map_append, List.pairwise_append] at hitems
  obtain ⟨-, hback, hfront⟩ := hitems
  constructor
  · intro i hi
    exact hfront _ (mem_items_of_mem_instructions hi) (.failure f) List.mem_cons_self
  · intro i hi
    exact (List.pairwise_cons.1 hback).1 _ (mem_items_of_mem_instructions hi)

/-! ### The three policies -/

/-- What the results under the three policies have in common: what is raised, the program of a
sweep that stops and the program of one that skips. -/
structure PoliciesAgree (raised : Except Error Decoding) (stopped skipped : Program) : Prop where
  /-- A fault is raised exactly where one is recorded by a sweep that stops. -/
  raised_iff : (∃ error, raised = .error error) ↔ stopped.failures ≠ []
  /-- A sweep that stops records a fault exactly where one that skips does. -/
  stopped_iff : stopped.failures ≠ [] ↔ skipped.failures ≠ []
  /-- The first failure of a sweep that skips is the only one of a sweep that stops, and its fault
  is the one that is raised. -/
  first : ∀ f, skipped.failures.head? = some f →
    stopped.failures = [f] ∧ raised = .error (.decode f.fault)
  /-- A sweep that stops has those instructions of a sweep that skips which lie in front of the
  first failure. -/
  instructions : ∀ f, skipped.failures.head? = some f → ∃ later,
    skipped.instructions = stopped.instructions ++ later ∧
      (∀ i ∈ stopped.instructions, i.address < f.address) ∧ ∀ i ∈ later, f.address < i.address
  /-- Without a failure the programs are the same under all policies. -/
  complete : skipped.failures = [] → stopped = skipped ∧ ∃ log, raised = .ok ⟨skipped, log⟩

theorem PoliciesAgree.of_complete {program : Program} (h : program.failures = [])
    (log : List Log.Message) : PoliciesAgree (.ok ⟨program, log⟩) program program where
  raised_iff := by simp [h]
  stopped_iff := Iff.rfl
  first f hf := by simp [h] at hf
  instructions f hf := by simp [h] at hf
  complete _ := ⟨rfl, log, rfl⟩

/-- A failure parts a program into what lies in front of it and what only a sweep that skips
reaches. -/
theorem PoliciesAgree.of_failure {stopped skipped : Program} {f : Failure}
    {failures : List Failure} {instructions : List Instruction} (hstopped : stopped.failures = [f])
    (hskipped : skipped.failures = f :: failures)
    (hinstructions : skipped.instructions = stopped.instructions ++ instructions)
    (hfront : ∀ i ∈ stopped.instructions, i.address < f.address)
    (hback : ∀ i ∈ instructions, f.address < i.address) :
    PoliciesAgree (.error (.decode f.fault)) stopped skipped where
  raised_iff := by simp [hstopped]
  stopped_iff := by simp [hstopped, hskipped]
  first g hg := by
    rw [hskipped] at hg
    cases hg
    exact ⟨hstopped, rfl⟩
  instructions g hg := by
    rw [hskipped] at hg
    cases hg
    exact ⟨instructions, hinstructions, hfront, hback⟩
  complete hempty := by simp [hskipped] at hempty

/-- On every binary that does not end before its start, the three policies agree. -/
theorem decode_policies (settings : Settings.Program) (image : Image)
    (hstart : settings.start ≤ image.size) :
    ∃ stopped skipped, decode (settings.withPolicy .stop) image = .ok stopped ∧
      decode (settings.withPolicy .skip) image = .ok skipped ∧
      PoliciesAgree (decode (settings.withPolicy .raise) image) stopped.program
        skipped.program := by
  have hstarts : ∀ policy, (settings.withPolicy policy).start ≤ image.size := fun _ => hstart
  have hpolicy : (settings.withPolicy .skip).faultPolicy ≠ .raise :=
    Settings.FaultPolicy.noConfusion
  obtain ⟨events, hsweeps⟩ := exists_sweeps hpolicy (Nat.le_refl _) (hstarts .skip)
  obtain ⟨skipped, hskipped, hskip⟩ := decode_of_sweeps (hstarts .skip) hsweeps
  rcases hsweeps.cases_failure with
    ⟨hnone, hall⟩ | ⟨front, back, stop, cause, hfront, hnone, hlt, houtcome, rfl⟩
  · have hprogram : ∀ policy, ∃ program, Records (settings.withPolicy policy) image events program ∧
        decode (settings.withPolicy policy) image =
          .ok ⟨program, messagesOf policy program.failures⟩ := by
      intro policy
      have hsweeps := (hall.withPolicy hnone policy).sweeps .done
      rw [List.append_nil] at hsweeps
      exact decode_of_sweeps hstart hsweeps
    obtain ⟨stopped, hstopped, hstop⟩ := hprogram .stop
    obtain ⟨passed, hpassed, hraise⟩ := hprogram .raise
    obtain rfl := hstopped.eq hskipped rfl rfl
    obtain rfl := hpassed.eq hskipped rfl rfl
    refine ⟨_, _, hstop, hskip, ?_⟩
    rw [hraise]
    exact .of_complete (hskipped.failures.trans hnone) _
  · have hadvances : ∀ policy,
        Advances (settings.withPolicy policy) image settings.start front stop :=
      hfront.withPolicy hnone
    have hhalt : Sweeps (settings.withPolicy .stop) image settings.start
        (front ++ [.failed (failureOf settings image stop cause)]) :=
      (hadvances .stop).sweeps (.halted hlt houtcome (.inl rfl))
    obtain ⟨stopped, hstopped, hstop⟩ := decode_of_sweeps (hstarts .stop) hhalt
    have hraise : decode (settings.withPolicy .raise) image =
        .error (.decode (failureOf settings image stop cause).fault) :=
      (hadvances .raise).decode_eq_error hstart hlt houtcome rfl
    obtain ⟨hlower, hhigher⟩ := hsweeps.address_lt_of_failure
    have hinstructions : stopped.instructions = front.filterMap Event.instruction? := by
      rw [hstopped.instructions, List.filterMap_append]
      exact List.append_nil _
    have hone : stopped.failures = [failureOf settings image stop cause] := by
      rw [hstopped.failures, List.filterMap_append, hnone]
      rfl
    have hfirst : skipped.failures =
        failureOf settings image stop cause :: back.filterMap Event.failure? := by
      rw [hskipped.failures, List.filterMap_append, hnone]
      rfl
    have hlater : skipped.instructions =
        stopped.instructions ++ back.filterMap Event.instruction? := by
      rw [hskipped.instructions, hinstructions, List.filterMap_append]
      rfl
    refine ⟨_, _, hstop, hskip, ?_⟩
    rw [hraise]
    exact .of_failure hone hfirst hlater (hinstructions ▸ hlower) hhigher

/-- Behind a move from `bx` to `ax` comes a byte of no known family, and behind it a move that only
a sweep that skips reaches. -/
theorem decode_policies_unknown :
    ∃ stopped skipped, decode (Settings.Program.defaults.withPolicy .stop)
        #[0x89, 0xD8, 0x00, 0xB0, 0x05] = .ok stopped ∧
      decode (Settings.Program.defaults.withPolicy .skip)
        #[0x89, 0xD8, 0x00, 0xB0, 0x05] = .ok skipped ∧
      (∃ f, skipped.program.failures.head? = some f ∧ f.offset = 2) ∧
      PoliciesAgree
        (decode (Settings.Program.defaults.withPolicy .raise) #[0x89, 0xD8, 0x00, 0xB0, 0x05])
        stopped.program skipped.program := by
  let settings := Settings.Program.defaults.withPolicy .skip
  let i : Instruction := ⟨0, 2, .moveRegisterMemory, .register ⟨.word, 0⟩, .register ⟨.word, 3⟩,
    by decide, by decide, rfl⟩
  let j : Instruction := ⟨3, 2, .moveImmediateRegister, .register ⟨.byte, 0⟩, .immediate (.byte 5),
    by decide, by decide, rfl⟩
  have hsweeps : Sweeps settings #[0x89, 0xD8, 0x00, 0xB0, 0x05] 0
      [.decoded i, .failed (failureOf settings #[0x89, 0xD8, 0x00, 0xB0, 0x05] 2
        (.unknownOpcode 0 4)), .decoded j] := by
    have hskip : (Fault.ofCause 5 2 (.unknownOpcode 0 4)).skip? = some ((1 : Nat) : Int) := rfl
    exact .decoded rfl rfl (.skipped rfl rfl hskip (by decide) (.decoded rfl rfl .done))
  obtain ⟨program, hrecords, hdecode⟩ := decode_of_sweeps (Nat.zero_le _) hsweeps
  obtain ⟨stopped, skipped, hstop, hskip, hagree⟩ :=
    decode_policies .defaults #[0x89, 0xD8, 0x00, 0xB0, 0x05] (by decide)
  rw [hskip] at hdecode
  cases hdecode
  have hhead : program.failures.head? = some
      (failureOf settings #[0x89, 0xD8, 0x00, 0xB0, 0x05] 2 (.unknownOpcode 0 4)) := by
    rw [hrecords.failures]
    rfl
  exact ⟨stopped, _, hstop, hskip, ⟨_, hhead, rfl⟩, hagree⟩

end Program

end MachineCode
