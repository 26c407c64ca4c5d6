import MachineCode.Proofs.Sweep.Run

/-!
# The layout of the group

A member of the group `FF` is not decoded, but it is read to its end, so that its size is known. The
fields that are read for this are not those of a move: there are no bits for direction and width,
and the field of the register is passed over. All the same, the bytes behind `FF` are laid out like
those behind `8B`, the opcode of a load. Whatever these bytes are, the size that is reported is the
size of the load, and where a field is missing, the same one is missing from both. A sweep that
steps over faults therefore arrives at the same byte behind both, and finds the same from there on.

## Main definitions

* `BitReader.behind` : the place behind the first of two images.
* `Decoder.IsLaidOutAlike` : a position of the group and a position of a move with the same extent.
* `Program.GoesOnAlike` : what a sweep does at these two positions.

## Main results

* `ByteString.outcome_group_cases` : all outcomes of bytes behind the two opcodes.
* `Program.Sweeps.congr` : a run depends on the bytes that are left.
* `Program.isLaidOutAlike_group` : the group has the layout of a move.
-/

namespace MachineCode

namespace BitReader

/-- The place behind the first of two images. -/
def behind (front rest : Image) : BitReader (front ++ rest) where
  position := 8 * front.size
  position_le := by
    rw [Image.bitSize, Array.size_append]
    omega

end BitReader

theorem Image.drop_toList_append (front : Image) (b : UInt8) (rest : Image) :
    (front ++ (#[b] ++ rest)).toList.drop front.size = b :: rest.toList := by
  rw [Array.toList_append, ← Array.length_toList, List.drop_left, Array.toList_append]
  rfl

/-- The bytes behind the opcode of the group say how many of them belong to it, and the same number
of them belongs to a load. Where there are too few of them for one, there are too few for both. -/
theorem ByteString.outcome_group_cases (settings : Settings.Decoder) (rest : List UInt8) :
    (∃ operands size, outcome settings (0x8B :: rest) = .ok ⟨.moveRegisterMemory, operands, size⟩ ∧
        outcome settings (0xFF :: rest) =
          .error (.unimplemented .registerMemoryGroup (some (size : Nat)))) ∨
      ∃ cause : Fault.Cause, cause.IsTruncation ∧
        outcome settings (0x8B :: rest) = .error cause ∧
        outcome settings (0xFF :: rest) = .error cause := by
  have hmove : outcome settings (0x8B :: rest) = registerMemory settings 0x8B rest := rfl
  have hgroup : outcome settings (0xFF :: rest) = group settings rest := rfl
  have hwidth : width 0x8B = .word := rfl
  rw [hmove, hgroup]
  rcases rest with _ | ⟨mode, rest⟩
  · exact .inr ⟨_, ⟨2, 0, rfl⟩, rfl, rfl⟩
  · rw [registerMemory, group, hwidth]
    cases location settings .word mode rest with
    | none => exact .inr ⟨_, ⟨8, 0, rfl⟩, rfl, rfl⟩
    | some p => exact .inl ⟨_, _, rfl, rfl⟩

/-! ### Decode steps -/

namespace Decoder

variable {image other : Image}

/-- There is a member of the group of which nothing is known but the size. -/
def ReportsGroup (settings : Settings.Decoder) (address : Int) (reader : BitReader image)
    (size : Int) : Prop :=
  ∃ fault, instructionAt settings address reader = .error (.decode fault) ∧
    fault.cause = .unimplemented .registerMemoryGroup (some size)

/-- There is an instruction of a size. -/
def Decodes (settings : Settings.Decoder) (address : Int) (reader : BitReader image)
    (size : Int) : Prop :=
  ∃ i next, instructionAt settings address reader = .ok (i, next) ∧ (i.size : Int) = size

/-- The image ends inside a field, which the fault describes. -/
def Truncates (settings : Settings.Decoder) (address : Int) (reader : BitReader image)
    (fault : Fault) : Prop :=
  instructionAt settings address reader = .error (.decode fault) ∧ fault.cause.IsTruncation

/-- A position of a member of the group and a position of a move, of which one extends as far as the
other one. -/
structure IsLaidOutAlike (settings : Settings.Decoder) (address newAddress : Int)
    (group : BitReader image) (move : BitReader other) : Prop where
  /-- The size that is reported is the size of the move. -/
  size_iff : ∀ size, ReportsGroup settings address group size ↔
    Decodes settings newAddress move size
  /-- Where a field is missing, the same one is missing from the move. -/
  truncates_iff : ∀ fault, Truncates settings address group fault ↔
    Truncates settings newAddress move fault
  /-- Nothing else is reported of the group. -/
  group_cases : (∃ size, ReportsGroup settings address group size) ∨
    ∃ fault, Truncates settings address group fault
  /-- Nothing else becomes of the move. -/
  move_cases : (∃ size, Decodes settings newAddress move size) ∨
    ∃ fault, Truncates settings newAddress move fault

section Extents

variable {settings : Settings.Decoder} {address newAddress : Int} {group : BitReader image}
  {move : BitReader other}

/-- A member of the group is reported with the size of the move. -/
theorem IsLaidOutAlike.of_size {fault : Fault} {i : Instruction} {next : BitReader other}
    (hgroup : instructionAt settings address group = .error (.decode fault))
    (hcause : fault.cause = .unimplemented .registerMemoryGroup (some i.size))
    (hmove : instructionAt settings newAddress move = .ok (i, next)) :
    IsLaidOutAlike settings address newAddress group move := by
  have hreports : ReportsGroup settings address group i.size := ⟨fault, hgroup, hcause⟩
  have hdecodes : Decodes settings newAddress move i.size := ⟨i, next, hmove, rfl⟩
  refine ⟨fun size => ⟨?_, ?_⟩, fun other => ⟨?_, ?_⟩, .inl ⟨_, hreports⟩, .inl ⟨_, hdecodes⟩⟩
  · rintro ⟨other, hother, hsize⟩
    cases hgroup.symm.trans hother
    cases hcause.symm.trans hsize
    exact hdecodes
  · rintro ⟨j, last, hj, rfl⟩
    cases hmove.symm.trans hj
    exact hreports
  · rintro ⟨hother, requested, available, htruncation⟩
    cases hgroup.symm.trans hother
    cases hcause.symm.trans htruncation
  · rintro ⟨hother, -⟩
    cases hmove.symm.trans hother

theorem IsLaidOutAlike.of_truncation {fault : Fault} (h : fault.cause.IsTruncation)
    (hgroup : instructionAt settings address group = .error (.decode fault))
    (hmove : instructionAt settings newAddress move = .error (.decode fault)) :
    IsLaidOutAlike settings address newAddress group move := by
  refine ⟨fun size => ⟨?_, ?_⟩, fun other => ⟨?_, ?_⟩, .inr ⟨_, hgroup, h⟩, .inr ⟨_, hmove, h⟩⟩
  · rintro ⟨other, hother, hsize⟩
    obtain ⟨requested, available, htruncation⟩ := h
    cases hgroup.symm.trans hother
    cases htruncation.symm.trans hsize
  · rintro ⟨j, last, hj, -⟩
    cases hmove.symm.trans hj
  · rintro ⟨hother, -⟩
    cases hgroup.symm.trans hother
    exact ⟨hmove, h⟩
  · rintro ⟨hother, -⟩
    cases hmove.symm.trans hother
    exact ⟨hgroup, h⟩

end Extents

/-- Two positions at the same byte of images of the same size, which go on alike behind the opcode
of the group and the opcode of a load. -/
theorem isLaidOutAlike_of_bytes {settings : Settings.Decoder} (address newAddress : Nat)
    {group : BitReader image} {move : BitReader other} {offset : Nat}
    (hsize : image.size = other.size) (hgroup : group.position = 8 * offset)
    (hmove : move.position = 8 * offset) {rest : List UInt8}
    (hgroupBytes : image.toList.drop offset = 0xFF :: rest)
    (hmoveBytes : other.toList.drop offset = 0x8B :: rest) :
    IsLaidOutAlike settings address newAddress group move := by
  have hfirst := instructionAt_of_position settings address hgroup
  have hsecond := instructionAt_of_position settings newAddress hmove
  rw [hgroupBytes] at hfirst
  rw [hmoveBytes] at hsecond
  rcases ByteString.outcome_group_cases settings rest with
    ⟨operands, size, hok, herror⟩ | ⟨cause, htruncation, hok, herror⟩
  · rw [herror] at hfirst
    rw [hok] at hsecond
    obtain ⟨i, next, hi, -, hmove, -⟩ := hsecond
    obtain rfl : i.size = size := congrArg Move.size hmove
    exact .of_size hfirst rfl hi
  · rw [herror] at hfirst
    rw [hok, ← hsize] at hsecond
    exact .of_truncation htruncation hfirst hsecond

end Decoder

/-! ### Sweeps -/

namespace Program

variable {settings : Settings.Program} {image other : Image} {offset : Nat} {events : List Event}

/-- A run depends on the size of the image and on the bytes that are left. -/
theorem Sweeps.congr (h : Sweeps settings image offset events) (hsize : image.size = other.size)
    (hbytes : image.toList.drop offset = other.toList.drop offset) :
    Sweeps settings other offset events := by
  have hdrop : ∀ {offset : Nat} (count : Nat),
      image.toList.drop offset = other.toList.drop offset →
        image.toList.drop (offset + count) = other.toList.drop (offset + count) := by
    intro offset count hbytes
    rw [← List.drop_drop, hbytes, List.drop_drop]
  induction h with
  | done =>
    rw [hsize]
    exact .done
  | decoded outcome address rest ih =>
    rw [hbytes] at outcome
    exact .decoded outcome address (ih (hdrop _ hbytes))
  | skipped outcome policy skip pos rest ih =>
    rw [hbytes] at outcome
    rw [hsize] at skip
    rw [failureOf, hsize]
    exact .skipped outcome policy skip pos (ih (hdrop _ hbytes))
  | halted lt outcome halt =>
    rw [hbytes] at outcome
    rw [hsize] at lt halt
    rw [failureOf, hsize]
    exact .halted lt outcome halt

theorem eventsFrom_congr {reader : BitReader image} {elsewhere : BitReader other}
    (hpolicy : settings.faultPolicy ≠ .raise) (hstart : settings.start ≤ offset)
    (hle : offset ≤ image.size) (hreader : reader.position = 8 * offset)
    (helsewhere : elsewhere.position = 8 * offset) (hsize : image.size = other.size)
    (hbytes : image.toList.drop offset = other.toList.drop offset) :
    eventsFrom settings reader = eventsFrom settings elsewhere := by
  obtain ⟨events, hsweeps⟩ : ∃ events, Sweeps settings image offset events :=
    exists_sweeps hpolicy hstart hle
  rw [eventsFrom_of_sweeps hsweeps hreader hstart,
    eventsFrom_of_sweeps (hsweeps.congr hsize hbytes) helsewhere hstart]

/-- What a sweep does at a member of the group and at a move. -/
inductive GoesOnAlike (settings : Settings.Program) (group : BitReader image)
    (move : BitReader other) : Prop
  /-- The member of the group is recorded as a failure, with the address and the size of the move,
  and the sweep goes on at the same byte and finds the same from there on. -/
  | behind {f : Failure} {i : Instruction} {next : BitReader image} {last : BitReader other}
      {lt : group.position < next.position} {lt' : move.position < last.position}
      (group_step : (step settings group).outcome = .ok (.proceed (.failed f) next lt))
      (move_step : (step settings move).outcome = .ok (.proceed (.decoded i) last lt'))
      (address : f.address = i.address)
      (cause : f.fault.cause = .unimplemented .registerMemoryGroup (some i.size))
      (group_end : next.position = group.position + 8 * i.size)
      (move_end : last.position = move.position + 8 * i.size)
      (rest : eventsFrom settings next = eventsFrom settings last)
  /-- The image ends inside both, and the sweep ends with the same record. -/
  | ended {f : Failure}
      (steps : step settings group = ⟨[f.warning, f.notice], .ok (.finish f)⟩ ∧
        step settings move = ⟨[f.warning, f.notice], .ok (.finish f)⟩)
      (truncated : f.fault.cause.IsTruncation)

/-- A sweep that steps over faults, at the same byte of images of the same size which go on alike
behind the opcode. -/
theorem goesOnAlike_of_bytes {group : BitReader image} {move : BitReader other} {rest : List UInt8}
    (hpolicy : settings.faultPolicy = .skip) (hstart : settings.start ≤ offset)
    (hsize : image.size = other.size) (hgroup : group.position = 8 * offset)
    (hmove : move.position = 8 * offset) (hgroupBytes : image.toList.drop offset = 0xFF :: rest)
    (hmoveBytes : other.toList.drop offset = 0x8B :: rest) : GoesOnAlike settings group move := by
  have hraise : settings.faultPolicy ≠ .raise := by
    rw [hpolicy]
    decide
  rcases ByteString.outcome_group_cases settings.decoder rest with
    ⟨operands, size, hok, herror⟩ | ⟨cause, htruncation, hok, herror⟩
  · rw [← hgroupBytes] at herror
    rw [← hmoveBytes] at hok
    obtain ⟨i, last, lt', hstep', haddress, hi, hlast⟩ := step_of_move hmove hstart hok
    have hskip : (Fault.ofCause image.size offset
        (.unimplemented .registerMemoryGroup (some (size : Nat)))).skip? = some (size : Int) := rfl
    have hle := ByteString.add_le_of_skip? herror hskip
    obtain ⟨next, lt, hstep, hnext⟩ := step_of_skip hgroup hstart hle herror hpolicy hskip
    obtain rfl : i.size = size := congrArg Move.size hi
    simp only at hlast
    -- behind the opcode, the bytes of both images are the same
    have hbytes : image.toList.drop (offset + i.size) = other.toList.drop (offset + i.size) := by
      rw [← List.drop_drop, ← List.drop_drop, hgroupBytes, hmoveBytes,
        List.drop_cons i.one_le_size, List.drop_cons i.one_le_size]
    exact .behind (congrArg Logged.outcome hstep) (congrArg Logged.outcome hstep') haddress.symm
      rfl (by omega) (by omega)
      (eventsFrom_congr hraise (hstart.trans (Nat.le_add_right _ _)) hle hnext hlast hsize hbytes)
  · rw [← hgroupBytes] at herror
    rw [← hmoveBytes] at hok
    have hnone : ∀ size, (Fault.ofCause size offset cause).skip? = none := fun _ =>
      Fault.skip?_eq_none_iff.2 htruncation
    have hstep := step_of_halt hgroup hstart herror hraise (.inr (hnone _))
    have hstep' := step_of_halt hmove hstart hok hraise (.inr (hnone _))
    rw [failureOf, ← hsize] at hstep'
    exact .ended ⟨hstep, hstep'⟩ htruncation

/-- The group has the layout of a move. Behind any bytes, the size that is reported behind `FF` is
the size of what is decoded behind `8B`, and truncations are the same. A sweep that steps over
faults goes on behind the member of the group where it would go on behind the move. -/
theorem isLaidOutAlike_group (decoder : Settings.Decoder) (address newAddress : Nat)
    (front rest : Image) :
    Decoder.IsLaidOutAlike decoder address newAddress (.behind front (#[0xFF] ++ rest))
        (.behind front (#[0x8B] ++ rest)) ∧
      ∀ settings : Settings.Program, settings.faultPolicy = .skip → settings.start ≤ front.size →
        GoesOnAlike settings (.behind front (#[0xFF] ++ rest))
          (.behind front (#[0x8B] ++ rest)) := by
  have hsize : (front ++ (#[0xFF] ++ rest) : Image).size = (front ++ (#[0x8B] ++ rest)).size := by
    simp only [Array.size_append, List.size_toArray, List.length_singleton]
  have hgroup : (front ++ (#[0xFF] ++ rest) : Image).toList.drop front.size =
      0xFF :: rest.toList := Image.drop_toList_append front 0xFF rest
  have hmove : (front ++ (#[0x8B] ++ rest) : Image).toList.drop front.size =
      0x8B :: rest.toList := Image.drop_toList_append front 0x8B rest
  refine ⟨Decoder.isLaidOutAlike_of_bytes address newAddress hsize rfl rfl hgroup hmove, ?_⟩
  intro settings hpolicy hstart
  exact goesOnAlike_of_bytes hpolicy hstart hsize rfl rfl hgroup hmove

/-- Behind a byte that is not decoded, the member `FF 47 04` of the group is three bytes long, as
the load `8B 47 04` of `ax` from `bx + 4` is, and a sweep goes on with a move to `al` behind both.
-/
theorem isLaidOutAlike_group_load :
    Decoder.ReportsGroup {} 0 (.behind #[0x00] (#[0xFF] ++ #[0x47, 0x04, 0xB0, 0x05])) 3 ∧
      Decoder.Decodes {} 0 (.behind #[0x00] (#[0x8B] ++ #[0x47, 0x04, 0xB0, 0x05])) 3 ∧
      GoesOnAlike { start := 1, faultPolicy := .skip }
        (.behind #[0x00] (#[0xFF] ++ #[0x47, 0x04, 0xB0, 0x05]))
        (.behind #[0x00] (#[0x8B] ++ #[0x47, 0x04, 0xB0, 0x05])) := by
  obtain ⟨hlayout, hsweep⟩ :=
    isLaidOutAlike_group {} 0 0 #[0x00] #[0x47, 0x04, 0xB0, 0x05]
  have hdecodes :
      Decoder.Decodes {} 0 (.behind #[0x00] (#[0x8B] ++ #[0x47, 0x04, 0xB0, 0x05])) 3 := by
    obtain ⟨i, next, hi, -, hmove, -⟩ := Decoder.instructionAt_of_position {} 0
      (show (BitReader.behind #[0x00] (#[0x8B] ++ #[0x47, 0x04, 0xB0, 0x05])).position = 8 * 1
        from rfl)
    exact ⟨i, next, hi, congrArg (fun move : Move => (move.size : Int)) hmove⟩
  exact ⟨(hlayout.size_iff 3).2 hdecodes, hdecodes,
    hsweep { start := 1, faultPolicy := .skip } rfl (by decide)⟩

end Program

end MachineCode
