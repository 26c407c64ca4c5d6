import MachineCode.Program.Sweep
import MachineCode.Proofs.ByteString.Outcome

/-!
# Steps of a sweep

A step of a sweep that stands on the first bit of a byte is described by the outcome of the bytes
from there on. It records an instruction or a failure at the address of the byte, and when it goes
on, it stands on the first bit of a byte again, which is not behind the end of the image. None of
its checks fails. A step that records a failure leaves a warning of it, and where it ends the sweep,
a notice behind that. All other steps leave no message.

## Main definitions

* `Settings.Program.addressAt` : the address of a byte of the binary.
* `Program.failureOf` : the failure that a cause at a byte is recorded as.
* `Failure.warning`, `Failure.notice` : the messages about a failure.

## Main results

* `Program.step_of_move`, `Program.step_of_skip`, `Program.step_of_halt`, `Program.step_of_raise` :
  the four kinds of steps.
* `Program.step_cases` : there are no others.
-/

namespace MachineCode

namespace ByteString

open Image

theorem size_of_outcome {settings : Settings.Decoder} {bytes : List UInt8} {move : Move}
    (h : outcome settings bytes = .ok move) :
    2 ≤ move.size ∧ move.size ≤ 4 ∧ move.size ≤ bytes.length := by
  rw [← Scan.outcome_flatMap_byteBits] at h
  obtain ⟨hmin, hmax, hle, -⟩ := Scan.size_of_outcome h
  rw [length_flatMap_byteBits] at hle
  omega

theorem explains_of_outcome {settings : Settings.Decoder} {bytes : List UInt8}
    {cause : Fault.Cause} (h : outcome settings bytes = .error cause) :
    Scan.Explains (bytes.flatMap byteBits) cause := by
  rw [← Scan.outcome_flatMap_byteBits] at h
  exact Scan.explains_of_outcome h

/-- Where bytes do not decode, either they run out, or decoding goes on behind one of them. -/
theorem skip?_of_outcome {settings : Settings.Decoder} {bytes : List UInt8} {cause : Fault.Cause}
    (h : outcome settings bytes = .error cause) (size start : Nat) :
    (Fault.ofCause size start cause).skip? = none ∨
      ∃ count : Nat, (Fault.ofCause size start cause).skip? = some (count : Int) ∧
        1 ≤ count ∧ count ≤ bytes.length := by
  have hexplains := explains_of_outcome h
  have hlength : 1 ≤ bytes.length ∨ cause = .truncated 4 0 := by
    rcases bytes with _ | ⟨b, rest⟩
    · cases h
      exact .inr rfl
    · exact .inl (by simp)
  rcases hlength with hlength | rfl
  · cases cause with
    | truncated requested available => exact .inl rfl
    | unknownOpcode bits width => exact .inr ⟨1, rfl, Nat.le_refl 1, hlength⟩
    | unimplemented operation size? =>
      cases size? with
      | none => exact .inr ⟨1, rfl, Nat.le_refl 1, hlength⟩
      | some count =>
        obtain ⟨hmin, hmax, hle⟩ := hexplains
        rw [length_flatMap_byteBits] at hle
        refine .inr ⟨count.toNat, ?_, by omega, by omega⟩
        rw [Int.toNat_of_nonneg (by omega)]
        rfl
    | other message => exact absurd hexplains id
  · exact .inl rfl

theorem add_size_le_of_outcome {settings : Settings.Decoder} {image : Image} {offset : Nat}
    {i : Instruction} (h : outcome settings (image.toList.drop offset) = .ok i.move) :
    offset + i.size ≤ image.size := by
  obtain ⟨hmin, -, hle⟩ := size_of_outcome h
  rw [List.length_drop, Array.length_toList] at hle
  change offset + i.move.size ≤ image.size
  omega

theorem add_le_of_skip? {settings : Settings.Decoder} {image : Image} {cause : Fault.Cause}
    {offset size start count : Nat}
    (h : outcome settings (image.toList.drop offset) = .error cause)
    (hskip : (Fault.ofCause size start cause).skip? = some (count : Int)) :
    offset + count ≤ image.size := by
  rcases skip?_of_outcome h size start with hnone | ⟨n, hn, hpos, hle⟩
  · rw [hskip] at hnone
    simp at hnone
  · rw [hskip] at hn
    cases hn
    rw [List.length_drop, Array.length_toList] at hle
    omega

end ByteString

/-- The image ends inside a field. -/
def Fault.Cause.IsTruncation (cause : Fault.Cause) : Prop :=
  ∃ requested available, cause = .truncated requested available

/-- There is nothing to go on with exactly where the image ends inside a field. -/
theorem Fault.skip?_eq_none_iff {fault : Fault} :
    fault.skip? = none ↔ fault.cause.IsTruncation := by
  obtain ⟨offset, cause, starts⟩ := fault
  rw [skip?, Cause.IsTruncation]
  cases cause with
  | unimplemented operation size => cases size <;> simp
  | _ => simp

/-- The warning that a failure calls for names its address, its offset and what its fault says. -/
def Failure.warning (f : Failure) : Log.Message where
  level := .warning
  text := "Unable to decode instruction at " ++ Numeral.address f.address ++ " (offset " ++
    Numeral.offset f.offset ++ "): " ++ f.fault.message

/-- The last message, where decoding ends at a failure. -/
def Failure.notice (f : Failure) : Log.Message where
  level := .info
  text := "Decoding stopped at " ++ Numeral.address f.address

/-- The address at which a byte of the binary is loaded, for the bytes from the start on. -/
def Settings.Program.addressAt (settings : Settings.Program) (offset : Nat) : Nat :=
  settings.origin + (offset - settings.start)

@[simp] theorem Settings.Program.addressAt_start (settings : Settings.Program) :
    settings.addressAt settings.start = settings.origin := by
  rw [addressAt, Nat.sub_self, Nat.add_zero]

namespace Program

/-- The failure that is recorded where the bytes from an offset on do not decode. -/
def failureOf (settings : Settings.Program) (image : Image) (offset : Nat) (cause : Fault.Cause) :
    Failure :=
  ⟨settings.addressAt offset, offset, .ofCause image.size offset cause⟩

variable {settings : Settings.Program} {image : Image} {reader : BitReader image} {offset : Nat}

/-! ### Steps at any position -/

theorem step_of_ok {i : Instruction} {next : BitReader image}
    (h : Decoder.instructionAt settings.decoder (addressOf settings reader.byteIndex) reader =
      .ok (i, next)) :
    ∃ lt, step settings reader = ⟨[], .ok (.proceed (.decoded i) next lt)⟩ := by
  refine ⟨Decoder.position_lt_of_instructionAt h, ?_⟩
  unfold step
  dsimp only
  split
  · rename_i heq
    rw [h] at heq
    cases heq
    rfl
  · rename_i heq
    rw [h] at heq
    simp at heq
  · rename_i heq
    rw [h] at heq
    simp at heq

theorem step_of_fault_of_raise {fault : Fault}
    (h : Decoder.instructionAt settings.decoder (addressOf settings reader.byteIndex) reader =
      .error (.decode fault))
    (hpolicy : settings.faultPolicy = .raise) :
    step settings reader = ⟨[], .error (.decode fault)⟩ := by
  unfold step
  dsimp only
  split
  · rename_i heq
    rw [h] at heq
    simp at heq
  · rename_i heq
    rw [h] at heq
    cases heq
    exact if_pos hpolicy
  · rename_i hne heq
    rw [h] at heq
    cases heq
    exact absurd rfl (hne _)

/-- A fault that is not raised is reported and recorded. It ends the sweep where it cannot be
stepped over or must not be, and otherwise the step goes on behind it, if there is such a place. -/
theorem step_of_fault {fault : Fault} {failure : Failure}
    (h : Decoder.instructionAt settings.decoder (addressOf settings reader.byteIndex) reader =
      .error (.decode fault))
    (hpolicy : settings.faultPolicy ≠ .raise)
    (hfailure : failureAt settings reader.byteIndex fault = .ok failure) :
    (fault.skip? = none ∨ settings.faultPolicy = .stop) ∧
        step settings reader =
          ⟨[warning (addressOf settings reader.byteIndex) reader.byteIndex fault,
            notice (addressOf settings reader.byteIndex)], .ok (.finish failure)⟩ ∨
      ∃ count, fault.skip? = some count ∧ settings.faultPolicy ≠ .stop ∧
        ((∃ next lt, BitReader.atByte? image (reader.byteIndex + count) 0 = some next ∧
            step settings reader =
              ⟨[warning (addressOf settings reader.byteIndex) reader.byteIndex fault],
                .ok (.proceed (.failed failure) next lt)⟩) ∨
          BitReader.atByte? image (reader.byteIndex + count) 0 = none ∧
            (step settings reader).outcome = .error .outOfRange) := by
  unfold step
  dsimp only
  split
  · rename_i heq
    rw [h] at heq
    simp at heq
  · rename_i heq
    rw [h] at heq
    cases heq
    rw [if_neg hpolicy, hfailure, Logged.leave, Logged.ok_bind, Logged.lift_ok, Logged.ok_bind]
    split
    · rename_i hskip
      exact .inl ⟨.inl hskip, rfl⟩
    · rename_i count hskip
      by_cases hstop : settings.faultPolicy = .stop
      · rw [if_pos hstop]
        exact .inl ⟨.inr hstop, rfl⟩
      · refine .inr ⟨count, hskip, hstop, ?_⟩
        rw [if_neg hstop]
        split
        · rename_i next hnext
          have hpos := Decoder.skip_pos_of_instructionAt h hskip
          exact .inl ⟨next, position_lt_of_atByte? hpos hnext, hnext, rfl⟩
        · rename_i hnone
          exact .inr ⟨hnone, rfl⟩
  · rename_i hne heq
    rw [h] at heq
    cases heq
    exact absurd rfl (hne _)

/-! ### Steps at a byte -/

theorem addressOf_of_le (h : settings.start ≤ offset) :
    addressOf settings offset = settings.addressAt offset := by
  rw [addressOf, Settings.Program.addressAt]
  omega

theorem failureAt_of_le (h : settings.start ≤ offset) (cause : Fault.Cause) :
    failureAt settings offset (.ofCause image.size offset cause) =
      .ok (failureOf settings image offset cause) := by
  rw [failureAt, addressOf_of_le h, Failure.ofFields?, if_pos (by omega)]
  rfl

/-- What is decoded at a byte is the outcome of the bytes from there on. -/
theorem instructionAt_addressOf (hposition : reader.position = 8 * offset)
    (hstart : settings.start ≤ offset) :
    match ByteString.outcome settings.decoder (image.toList.drop offset) with
    | .ok move => ∃ i next,
        Decoder.instructionAt settings.decoder (addressOf settings reader.byteIndex) reader =
          .ok (i, next) ∧
        i.address = settings.addressAt offset ∧ i.move = move ∧
        next.position = 8 * (offset + move.size)
    | .error cause =>
        Decoder.instructionAt settings.decoder (addressOf settings reader.byteIndex) reader =
          .error (.decode (.ofCause image.size offset cause)) := by
  rw [BitReader.byteIndex_of_position hposition, addressOf_of_le hstart]
  exact Decoder.instructionAt_of_position settings.decoder _ hposition

/-- Bytes that decode to a move give an instruction at the address of the first of them, and the
step goes on behind them. -/
theorem step_of_move {move : Move} (hposition : reader.position = 8 * offset)
    (hstart : settings.start ≤ offset)
    (h : ByteString.outcome settings.decoder (image.toList.drop offset) = .ok move) :
    ∃ i next lt, step settings reader = ⟨[], .ok (.proceed (.decoded i) next lt)⟩ ∧
      i.address = settings.addressAt offset ∧ i.move = move ∧
      next.position = 8 * (offset + move.size) := by
  have hdecode := instructionAt_addressOf hposition hstart
  rw [h] at hdecode
  obtain ⟨i, next, hdecode, haddress, hmove, hnext⟩ := hdecode
  obtain ⟨lt, hstep⟩ := step_of_ok hdecode
  exact ⟨i, next, lt, hstep, haddress, hmove, hnext⟩

/-- Bytes that do not decode end a sweep whose result is the fault. -/
theorem step_of_raise {cause : Fault.Cause} (hposition : reader.position = 8 * offset)
    (hstart : settings.start ≤ offset)
    (h : ByteString.outcome settings.decoder (image.toList.drop offset) = .error cause)
    (hpolicy : settings.faultPolicy = .raise) :
    step settings reader = ⟨[], .error (.decode (.ofCause image.size offset cause))⟩ := by
  have hdecode := instructionAt_addressOf hposition hstart
  rw [h] at hdecode
  exact step_of_fault_of_raise hdecode hpolicy

/-- Bytes that do not decode end a sweep that does not step over them. -/
theorem step_of_halt {cause : Fault.Cause} (hposition : reader.position = 8 * offset)
    (hstart : settings.start ≤ offset)
    (h : ByteString.outcome settings.decoder (image.toList.drop offset) = .error cause)
    (hpolicy : settings.faultPolicy ≠ .raise)
    (hhalt : settings.faultPolicy = .stop ∨
      (Fault.ofCause image.size offset cause).skip? = none) :
    step settings reader =
      ⟨[(failureOf settings image offset cause).warning,
        (failureOf settings image offset cause).notice],
        .ok (.finish (failureOf settings image offset cause))⟩ := by
  have hdecode := instructionAt_addressOf hposition hstart
  rw [h] at hdecode
  have hindex := BitReader.byteIndex_of_position hposition
  subst hindex
  rcases step_of_fault hdecode hpolicy (failureAt_of_le hstart cause) with
    ⟨-, hstep⟩ | ⟨count, hskip, hstop, -⟩
  · rw [hstep, addressOf_of_le hstart]
    rfl
  · rcases hhalt with hhalt | hhalt
    · exact absurd hhalt hstop
    · rw [hhalt] at hskip
      simp at hskip

/-- A sweep that steps over the bytes that do not decode goes on behind them. -/
theorem step_of_skip {cause : Fault.Cause} {count : Nat} (hposition : reader.position = 8 * offset)
    (hstart : settings.start ≤ offset) (hle : offset + count ≤ image.size)
    (h : ByteString.outcome settings.decoder (image.toList.drop offset) = .error cause)
    (hpolicy : settings.faultPolicy = .skip)
    (hskip : (Fault.ofCause image.size offset cause).skip? = some (count : Int)) :
    ∃ next lt, step settings reader =
        ⟨[(failureOf settings image offset cause).warning],
          .ok (.proceed (.failed (failureOf settings image offset cause)) next lt)⟩ ∧
      next.position = 8 * (offset + count) := by
  have hdecode := instructionAt_addressOf hposition hstart
  rw [h] at hdecode
  have hindex := BitReader.byteIndex_of_position hposition
  subst hindex
  obtain ⟨place, hplace, hnext⟩ := BitReader.atByte?_zero hle
  rw [Nat.cast_add] at hplace
  rcases step_of_fault hdecode (by rw [hpolicy]; decide) (failureAt_of_le hstart cause) with
    ⟨hnone | hstop, -⟩ | ⟨count', hcount, -, ⟨next, lt, hat, hstep⟩ | ⟨hat, -⟩⟩
  · rw [hskip] at hnone
    simp at hnone
  · rw [hpolicy] at hstop
    simp at hstop
  · rw [hskip] at hcount
    cases hcount
    rw [hplace] at hat
    cases hat
    rw [addressOf_of_le hstart] at hstep
    exact ⟨_, lt, hstep, hnext⟩
  · rw [hskip] at hcount
    cases hcount
    rw [hplace] at hat
    simp at hat

/-- All that a step at a byte of the image can do. -/
theorem step_cases (hposition : reader.position = 8 * offset) (hstart : settings.start ≤ offset)
    (hlt : offset < image.size) :
    (∃ i next lt, ByteString.outcome settings.decoder (image.toList.drop offset) = .ok i.move ∧
        i.address = settings.addressAt offset ∧ offset + i.size ≤ image.size ∧
        step settings reader = ⟨[], .ok (.proceed (.decoded i) next lt)⟩ ∧
        next.position = 8 * (offset + i.size)) ∨
      ∃ cause, ByteString.outcome settings.decoder (image.toList.drop offset) = .error cause ∧
        ((∃ (count : Nat) (next : _) (lt : _), settings.faultPolicy = .skip ∧
            (Fault.ofCause image.size offset cause).skip? = some (count : Int) ∧
            1 ≤ count ∧ offset + count ≤ image.size ∧
            step settings reader =
              ⟨[(failureOf settings image offset cause).warning],
                .ok (.proceed (.failed (failureOf settings image offset cause)) next lt)⟩ ∧
            next.position = 8 * (offset + count)) ∨
          (settings.faultPolicy = .stop ∨ settings.faultPolicy = .skip ∧
              (Fault.ofCause image.size offset cause).skip? = none) ∧
            step settings reader =
              ⟨[(failureOf settings image offset cause).warning,
                (failureOf settings image offset cause).notice],
                .ok (.finish (failureOf settings image offset cause))⟩ ∨
          settings.faultPolicy = .raise ∧
            step settings reader =
              ⟨[], .error (.decode (.ofCause image.size offset cause))⟩) := by
  have hlength : (image.toList.drop offset).length = image.size - offset := by simp
  cases houtcome : ByteString.outcome settings.decoder (image.toList.drop offset) with
  | ok move =>
    obtain ⟨i, next, lt, hstep, haddress, rfl, hnext⟩ := step_of_move hposition hstart houtcome
    have hend := ByteString.add_size_le_of_outcome houtcome
    exact .inl ⟨i, next, lt, rfl, haddress, hend, hstep, hnext⟩
  | error cause =>
    refine .inr ⟨cause, rfl, ?_⟩
    cases hpolicy : settings.faultPolicy with
    | raise => exact .inr (.inr ⟨rfl, step_of_raise hposition hstart houtcome hpolicy⟩)
    | stop =>
      refine .inr (.inl ⟨.inl rfl, ?_⟩)
      exact step_of_halt hposition hstart houtcome (by rw [hpolicy]; decide) (.inl hpolicy)
    | skip =>
      rcases ByteString.skip?_of_outcome houtcome image.size offset with
        hnone | ⟨count, hcount, hpos, hle⟩
      · refine .inr (.inl ⟨.inr ⟨rfl, hnone⟩, ?_⟩)
        exact step_of_halt hposition hstart houtcome (by rw [hpolicy]; decide) (.inr hnone)
      · have hend : offset + count ≤ image.size := by omega
        obtain ⟨next, lt, hstep, hnext⟩ :=
          step_of_skip hposition hstart hend houtcome hpolicy hcount
        exact .inl ⟨count, next, lt, rfl, hcount, hpos, hend, hstep, hnext⟩

end Program

end MachineCode
