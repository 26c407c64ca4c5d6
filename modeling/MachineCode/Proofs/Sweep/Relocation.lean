import MachineCode.Proofs.Sweep.Policy
import MachineCode.Proofs.Sweep.Translation

/-!
# Relocated binaries

Where a binary is loaded and where its decoding starts has no effect on what is decoded. The bytes
from the start on, decoded by themselves and loaded at address zero, give the same instructions and
the same failures. Addresses are then lower by the origin, and offsets, also those that faults name,
by the start.

## Main definitions

* `Settings.Program.unplaced` : the same settings for a binary that is decoded as a whole.
* `Fault.Relocates`, `Failure.Relocates`, `Program.Relocates` : the same at higher places.

## Main results

* `Program.exists_sweeps_or_advances` : a sweep has a run, or a part of one up to the fault that it
  raises.
* `Program.decode_relocates` : a binary is decoded like its bytes from the start on.
-/

namespace MachineCode

/-- The same settings for a binary that is decoded from its first byte on, at address zero. -/
def Settings.Program.unplaced (settings : Settings.Program) : Settings.Program :=
  { settings with
    origin := 0
    start := 0
    origin_le := Nat.zero_le _ }

/-- Two faults of one cause that name their places, where those of the second one are higher by a
fixed number. -/
structure Fault.Relocates (offsets : Nat) (fault other : Fault) : Prop where
  offset : other.offset = fault.offset + offsets
  cause : other.cause = fault.cause
  starts : other.starts = fault.starts.map (· + offsets)
  message : other.message =
    fault.cause.text ++ " at offset " ++ Numeral.offset (fault.offset + offsets)
  notes : other.notes = fault.starts.map fun start => startText (start + offsets)
  names : fault.NamesPlaces
  names_other : other.NamesPlaces

theorem Fault.relocates_shift (offsets : Nat) {fault : Fault} (h : fault.NamesPlaces) :
    fault.Relocates offsets (fault.shift offsets) :=
  ⟨rfl, rfl, rfl, message_shift offsets fault, notes_shift offsets fault, h, h.shift offsets⟩

/-- Two failures with one fault, the second one at a higher address and at a higher offset. -/
structure Failure.Relocates (addresses offsets : Nat) (failure other : Failure) : Prop where
  address : other.address = failure.address + addresses
  offset : other.offset = failure.offset + offsets
  fault : failure.fault.Relocates offsets other.fault

theorem Failure.relocates_shift (addresses offsets : Nat) {failure : Failure}
    (h : failure.fault.NamesPlaces) :
    failure.Relocates addresses offsets (failure.shift addresses offsets) :=
  ⟨rfl, rfl, Fault.relocates_shift offsets h⟩

namespace Program

variable {settings : Settings.Program} {image : Image}

/-- The program `whole` lists what `alone` lists, at higher addresses and offsets. -/
structure Relocates (addresses offsets : Nat) (alone whole : Program) : Prop where
  origin : whole.origin = alone.origin + addresses
  data : whole.data = alone.data
  instructions : whole.instructions = alone.instructions.map (Instruction.shift addresses)
  failures : List.Forall₂ (Failure.Relocates addresses offsets) alone.failures whole.failures

/-- The bytes from the start on are those of the binary behind what is in front of them. -/
theorem exists_translation (hstart : settings.start ≤ image.size) :
    ∃ front : List UInt8, front.length = settings.start ∧
      Translation settings.unplaced (image.extract settings.start image.size) settings image front
        settings.origin := by
  have hlength : (image.toList.take settings.start).length = settings.start :=
    List.length_take_of_le hstart
  refine ⟨image.toList.take settings.start, hlength, rfl, rfl, ?_, rfl, hlength.ge, ?_⟩
  · rw [Array.toList_extract, List.extract_eq_take_drop, ← Array.length_toList,
      ← List.length_drop, List.take_length, List.take_append_drop]
  · rw [hlength, Nat.sub_self, Nat.add_comm]
    rfl

/-- Runs at two places describe programs of which one lists what the other one lists. -/
theorem Records.relocates {other : Image} {elsewhere : Settings.Program} {events : List Event}
    {alone whole : Program} {addresses offsets : Nat} (halone : Records settings image events alone)
    (hnames : ∀ f ∈ events.filterMap Event.failure?, f.fault.NamesPlaces)
    (hwhole : Records elsewhere other (events.map (Event.shift addresses offsets)) whole)
    (horigin : elsewhere.origin = settings.origin + addresses)
    (hdata : other.extract elsewhere.start other.size = image.extract settings.start image.size) :
    Relocates addresses offsets alone whole := by
  refine ⟨?_, ?_, ?_, ?_⟩
  · rw [hwhole.origin, halone.origin, horigin]
  · rw [hwhole.data, halone.data, hdata]
  · rw [hwhole.instructions, halone.instructions, filterMap_instruction?_shift]
  · rw [hwhole.failures, halone.failures, filterMap_failure?_shift, List.forall₂_map_right_iff,
      List.forall₂_same]
    exact fun f hf => Failure.relocates_shift addresses offsets (hnames f hf)

/-- A sweep has a run, or it comes without failures to the fault that it raises. -/
theorem exists_sweeps_or_advances {offset : Nat} (hstart : settings.start ≤ offset)
    (hle : offset ≤ image.size) :
    (∃ events, Sweeps settings image offset events) ∨
      settings.faultPolicy = .raise ∧ ∃ events stop cause,
        Advances settings image offset events stop ∧ stop < image.size ∧
        ByteString.outcome settings.decoder (image.toList.drop stop) = .error cause := by
  by_cases hpolicy : settings.faultPolicy = .raise
  · -- up to its first failure, a sweep that stops does the same
    obtain ⟨events, hsweeps⟩ : ∃ events, Sweeps (settings.withPolicy .stop) image offset events :=
      exists_sweeps Settings.FaultPolicy.noConfusion hstart hle
    rcases hsweeps.cases_failure with
      ⟨hnone, hall⟩ | ⟨front, back, stop, cause, hfront, hnone, hlt, houtcome, -⟩
    · exact .inl ⟨events, (hall.withPolicy hnone settings.faultPolicy).sweeps_of_size⟩
    · exact .inr ⟨hpolicy, front, stop, cause, hfront.withPolicy hnone settings.faultPolicy, hlt,
        houtcome⟩
  · exact .inl (exists_sweeps hpolicy hstart hle)

/-- The bytes from the start on, decoded by themselves, give the same program at lower places, or
they raise the same fault. -/
theorem decode_relocates (settings : Settings.Program) (image : Image)
    (hstart : settings.start ≤ image.size) :
    (∃ alone whole,
        decode settings.unplaced (image.extract settings.start image.size) = .ok alone ∧
        decode settings image = .ok whole ∧
        Relocates settings.origin settings.start alone.program whole.program) ∨
      settings.faultPolicy = .raise ∧ ∃ fault other,
        decode settings.unplaced (image.extract settings.start image.size) =
          .error (.decode fault) ∧
        decode settings image = .error (.decode other) ∧
        fault.Relocates settings.start other := by
  obtain ⟨front, hfront, ht⟩ := exists_translation hstart
  have hunplaced : settings.unplaced.start ≤ 0 := Nat.le_refl 0
  have hzero := hunplaced.trans (Nat.zero_le (image.extract settings.start image.size).size)
  rcases exists_sweeps_or_advances hunplaced (Nat.zero_le _) with
    ⟨events, halone⟩ | ⟨hpolicy, events, stop, cause, halone, hlt, houtcome⟩
  · have hwhole := halone.shift ht
    rw [hfront, Nat.zero_add] at hwhole
    obtain ⟨alone, haloneRecords, haloneDecode⟩ := decode_of_sweeps hzero halone
    obtain ⟨whole, hwholeRecords, hwholeDecode⟩ := decode_of_sweeps hstart hwhole
    refine .inl ⟨_, _, haloneDecode, hwholeDecode, haloneRecords.relocates
      halone.namesPlaces hwholeRecords ?_ ?_⟩
    · exact (Nat.zero_add _).symm
    · exact Array.extract_size.symm
  · have hwhole := halone.shift ht
    have hcause := (ht.outcome stop).trans houtcome
    have hfault := ht.ofCause stop cause
    have hbehind : stop + front.length < image.size := by
      rw [ht.size]
      omega
    rw [hfront] at hwhole hcause hfault hbehind
    rw [Nat.zero_add] at hwhole
    have hraised := hwhole.decode_eq_error hstart hbehind hcause hpolicy
    rw [hfault] at hraised
    exact .inr ⟨hpolicy, _, _, halone.decode_eq_error hzero hlt houtcome hpolicy, hraised,
      Fault.relocates_shift _ (Fault.namesPlaces_ofCause ..)⟩

/-- Behind a byte that is not decoded come a move from `bx` to `ax` and the opcode of a load, which
is recorded as a failure or raised as a fault. -/
theorem decode_relocates_truncated :
    1 ≤ (#[0x00, 0x89, 0xD8, 0x8B] : Image).size ∧
      (∃ alone whole, decode { faultPolicy := .skip } #[0x89, 0xD8, 0x8B] = .ok alone ∧
        decode { origin := 0x100, start := 1, faultPolicy := .skip } #[0x00, 0x89, 0xD8, 0x8B] =
          .ok whole ∧
        Relocates 0x100 1 alone.program whole.program) ∧
      ∃ fault other,
        decode { faultPolicy := .raise } #[0x89, 0xD8, 0x8B] = .error (.decode fault) ∧
        decode { origin := 0x100, start := 1, faultPolicy := .raise } #[0x00, 0x89, 0xD8, 0x8B] =
          .error (.decode other) ∧
        fault.Relocates 1 other := by
  refine ⟨by decide, ?_, ?_⟩
  · rcases decode_relocates { origin := 0x100, start := 1, faultPolicy := .skip }
      #[0x00, 0x89, 0xD8, 0x8B] (by decide) with hdecode | ⟨hpolicy, -⟩
    · exact hdecode
    · cases hpolicy
  · rcases decode_relocates { origin := 0x100, start := 1, faultPolicy := .raise }
      #[0x00, 0x89, 0xD8, 0x8B] (by decide) with ⟨alone, whole, halone, -⟩ | ⟨-, hdecode⟩
    · let i : Instruction := ⟨0, 2, .moveRegisterMemory, .register ⟨.word, 0⟩,
        .register ⟨.word, 3⟩, by decide, by decide, rfl⟩
      have hbegun : Advances { faultPolicy := .raise } #[0x89, 0xD8, 0x8B] 0 [.decoded i] 2 :=
        .decoded rfl rfl (.refl _)
      have hcause : ByteString.outcome {} [0x8B] = .error (.truncated 2 0) := rfl
      have herror := hbegun.decode_eq_error (Nat.zero_le _) (by decide) hcause rfl
      cases halone.symm.trans herror
    · exact hdecode

end Program

end MachineCode
