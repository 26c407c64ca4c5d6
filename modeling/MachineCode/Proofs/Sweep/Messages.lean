import MachineCode.Proofs.Sweep.Policy

/-!
# The messages of a sweep

Messages are left in the log while a sweep goes on, step by step, and stay there if it ends with a
fault. They tell what the program tells at the end: one warning for each of its failures, in their
order, and a last message if decoding ended at one of them. This is so although a step that warns of
a failure does not know what comes behind it. A sweep that raises faults leaves no message, neither
before the fault nor for it.

## Main definitions

* `Failure.IsWarnedOfBy`, `Failure.IsNoticedBy` : what a message about a failure says.

## Main results

* `Program.messages_eq_nil` : a sweep that raises faults leaves no message.
* `Program.logged_eq` : the log mirrors the program.
-/

namespace MachineCode

/-- A message warns of a failure. It names its address and its offset by hexadecimal numerals, and
says what its fault says. -/
structure Failure.IsWarnedOfBy (f : Failure) (message : Log.Message) : Prop where
  level : message.level = .warning
  text : ∃ address offset, message.text = "Unable to decode instruction at " ++ address ++
      " (offset " ++ offset ++ "): " ++ f.fault.message ∧
    Numeral.IsHexadecimal 5 address f.address ∧ Numeral.IsHexadecimal 4 offset f.offset

/-- A message gives notice that decoding ends at a failure, whose address it names. -/
structure Failure.IsNoticedBy (f : Failure) (message : Log.Message) : Prop where
  level : message.level = .info
  text : ∃ address, message.text = "Decoding stopped at " ++ address ∧
    Numeral.IsHexadecimal 5 address f.address

theorem Failure.isWarnedOfBy_warning (f : Failure) : f.IsWarnedOfBy f.warning :=
  ⟨rfl, _, _, rfl, Numeral.isHexadecimal_address f.address, Numeral.isHexadecimal_offset f.offset⟩

theorem Failure.isNoticedBy_notice (f : Failure) : f.IsNoticedBy f.notice :=
  ⟨rfl, _, rfl, Numeral.isHexadecimal_address f.address⟩

namespace Program

variable {settings : Settings.Program} {image : Image}

theorem Sweeps.failures_eq_nil_of_raise {offset : Nat} {events : List Event}
    (h : Sweeps settings image offset events) (hpolicy : settings.faultPolicy = .raise) :
    events.filterMap Event.failure? = [] := by
  rcases h.exists_advances with hall | ⟨front, stop, cause, -, -, -, hhalt, -⟩
  · exact hall.failures_eq_nil (by rw [hpolicy]; decide)
  · rw [hpolicy] at hhalt
    rcases hhalt with hhalt | ⟨hhalt, -⟩ <;> cases hhalt

/-- A sweep that raises faults leaves no message, whether it ends with a program or an error. -/
theorem messages_eq_nil (hpolicy : settings.faultPolicy = .raise) :
    (run settings image).messages = [] := by
  rcases run_cases settings image with
    ⟨-, hrun⟩ | ⟨-, ⟨events, program, hsweeps, hrecords, hrun⟩ | ⟨error, hrun, -⟩⟩
  · rw [hrun]
  · rw [hrun, hrecords.failures, hsweeps.failures_eq_nil_of_raise hpolicy]
    rfl
  · rw [hrun]

/-- The log mirrors the program. On every binary that does not end before its start, a sweep that
raises faults leaves no messages, however it ends. Any other one ends with a program and has left
the messages that its failures call for, which name where these are. The log that comes with a
program holds what has been left. -/
theorem logged_eq (settings : Settings.Program) (image : Image)
    (hstart : settings.start ≤ image.size) :
    (settings.faultPolicy = .raise → (run settings image).messages = []) ∧
      (settings.faultPolicy ≠ .raise → ∃ program, (run settings image).outcome = .ok program ∧
        (run settings image).messages = messagesOf settings.faultPolicy program.failures ∧
        ∀ f ∈ program.failures, f.IsWarnedOfBy f.warning ∧ f.IsNoticedBy f.notice) ∧
      ∀ decoding, decode settings image = .ok decoding →
        (run settings image).outcome = .ok decoding.program ∧
          decoding.log = (run settings image).messages := by
  refine ⟨messages_eq_nil, fun hpolicy => ?_, fun decoding hdecode => ?_⟩
  · obtain ⟨events, hsweeps⟩ := exists_sweeps hpolicy (Nat.le_refl _) hstart
    obtain ⟨program, -, hrun⟩ := run_of_sweeps hstart hsweeps
    rw [hrun]
    exact ⟨program, rfl, rfl, fun f _ => ⟨f.isWarnedOfBy_warning, f.isNoticedBy_notice⟩⟩
  · rw [decode, Logged.decoding] at hdecode
    cases houtcome : (run settings image).outcome with
    | error error =>
      rw [houtcome] at hdecode
      cases hdecode
    | ok program =>
      rw [houtcome] at hdecode
      cases hdecode
      exact ⟨rfl, rfl⟩

/-- A byte of no known family and the opcode of a load, at which the image ends: a sweep that steps
over faults leaves two warnings and a notice, and one that raises them ends with the first fault and
leaves nothing. -/
theorem logged_eq_truncated :
    0 ≤ (#[0x00, 0x8B] : Image).size ∧
      (∃ program,
        (run { origin := 0x100, faultPolicy := .skip } #[0x00, 0x8B]).outcome = .ok program ∧
        (run { origin := 0x100, faultPolicy := .skip } #[0x00, 0x8B]).messages = [
          ⟨.warning, "Unable to decode instruction at 0x00100 (offset 0x0000): " ++
            "unsupported opcode 0000 at offset 0x0000"⟩,
          ⟨.warning, "Unable to decode instruction at 0x00101 (offset 0x0001): " ++
            "input exhausted, 2 bits requested, 0 available at offset 0x0002"⟩,
          ⟨.info, "Decoding stopped at 0x00101"⟩]) ∧
      (run { origin := 0x100, faultPolicy := .raise } #[0x00, 0x8B]).messages = [] ∧
      ∃ fault, decode { origin := 0x100, faultPolicy := .raise } #[0x00, 0x8B] =
        .error (.decode fault) := by
  let settings : Settings.Program := { origin := 0x100, faultPolicy := .skip }
  have hsweeps : Sweeps settings #[0x00, 0x8B] 0
      [.failed (failureOf settings #[0x00, 0x8B] 0 (.unknownOpcode 0 4)),
        .failed (failureOf settings #[0x00, 0x8B] 1 (.truncated 2 0))] := by
    have hskip : (Fault.ofCause 2 0 (.unknownOpcode 0 4)).skip? = some ((1 : Nat) : Int) := rfl
    exact .skipped rfl rfl hskip (by decide) (.halted (by decide) rfl (.inr ⟨rfl, rfl⟩))
  obtain ⟨program, hrecords, hrun⟩ := run_of_sweeps (Nat.zero_le _) hsweeps
  obtain ⟨-, hlogged, -⟩ := logged_eq settings #[0x00, 0x8B] (by decide)
  obtain ⟨result, hresult, hmessages, -⟩ := hlogged (by decide)
  cases (congrArg Logged.outcome hrun).symm.trans hresult
  have hbegun : Advances { origin := 0x100, faultPolicy := .raise } #[0x00, 0x8B] 0 [] 0 := .refl 0
  have hcause : ByteString.outcome {} [0x00, 0x8B] = .error (.unknownOpcode 0 4) := rfl
  have hraised := hbegun.decode_eq_error (Nat.zero_le _) (by decide) hcause rfl
  refine ⟨by decide, ⟨program, hresult, ?_⟩,
    (logged_eq { origin := 0x100, faultPolicy := .raise } #[0x00, 0x8B] (by decide)).1 rfl,
    _, hraised⟩
  rw [hmessages, hrecords.failures]
  decide

end Program

end MachineCode
