import MachineCode.Proofs.Sweep.Decode

/-!
# Totality of decoding

Decoding a binary checks many things on the way: that fields fit, that bytes exist, that positions
lie within the image, that sizes are whole bytes, that the parts of a program are in order. None of
these checks ever fails, whatever the bytes are. This file lists the positions at which a sweep
takes its steps and shows that there are not more of them than bytes, that every step which does not
leave the sweep goes on at a later byte, and that no error other than that of a start behind the
end, or of an instruction where the settings ask for it, comes out.

## Main definitions

* `Program.passes` : the positions at which a sweep takes its steps.
* `Program.Proceeds` : what a step that does not fail does.

## Main results

* `Program.eventsFrom_eq_foldr_passes` : a sweep is its steps at these positions.
* `Program.decode_total` : all outcomes of decoding a binary.
-/

namespace MachineCode

/-- A cause that an instruction has: the image ends inside a field, the opcode is of no known
family, or its family is not decoded. -/
def Fault.Cause.IsNamed : Fault.Cause → Prop
  | .truncated _ _ | .unknownOpcode _ _ | .unimplemented _ _ => True
  | .other _ => False

theorem ByteString.isNamed_of_outcome {settings : Settings.Decoder} {bytes : List UInt8}
    {cause : Fault.Cause} (h : outcome settings bytes = .error cause) : cause.IsNamed := by
  have hexplains := explains_of_outcome h
  cases cause with
  | other message => exact absurd hexplains id
  | _ => trivial

namespace Program

variable {settings : Settings.Program} {image : Image}

/-- The positions at which a sweep takes its steps, in their order. -/
def passes (settings : Settings.Program) (reader : BitReader image) : List (BitReader image) :=
  if reader.atEnd = true then
    []
  else
    match (step settings reader).outcome with
    | .ok (.proceed _ next _lt) => reader :: passes settings next
    | .ok (.finish _) => [reader]
    | .error _ => [reader]
termination_by reader.remaining
decreasing_by
  have := reader.position_add_remaining
  have := next.position_add_remaining
  omega

/-- A step, and what comes behind it if the step goes on. -/
def prepend (settings : Settings.Program) (reader : BitReader image)
    (rest : Logged (List Event)) : Logged (List Event) := do
  match ← step settings reader with
  | .finish failure => return [.failed failure]
  | .proceed event _ _ => return event :: (← rest)

/-- A sweep takes its steps at its passes, one behind the other, and does nothing else. -/
theorem eventsFrom_eq_foldr_passes (settings : Settings.Program) (reader : BitReader image) :
    eventsFrom settings reader = (passes settings reader).foldr (prepend settings) (pure []) := by
  induction hleft : reader.remaining using Nat.strong_induction_on generalizing reader with
  | _ left ih =>
    rw [eventsFrom, passes]
    by_cases hend : reader.atEnd = true
    · rw [if_pos hend, if_pos hend]
      rfl
    rw [if_neg hend, if_neg hend]
    rcases hstep : step settings reader with ⟨messages, error | ⟨event, next, lt⟩ | failure⟩
    · simp only [List.foldr_cons, prepend, hstep]
      rfl
    · have hremaining : next.remaining < left := by
        have := reader.position_add_remaining
        have := next.position_add_remaining
        omega
      simp only [List.foldr_cons, prepend, hstep, ih next.remaining hremaining next rfl,
        Logged.ok_bind]
    · simp only [List.foldr_cons, prepend, hstep]
      rfl

/-- A step at a byte of the image that does not fail: it goes on at a later byte or at the end of
the image, it ends the sweep, or it raises the fault of an instruction where the settings ask for
it. -/
def Proceeds (settings : Settings.Program) (reader : BitReader image) : Prop :=
  match (step settings reader).outcome with
  | .ok (.proceed _ next _) =>
    next.bitOffset = 0 ∧ reader.byteIndex + 1 ≤ next.byteIndex ∧ next.byteIndex ≤ image.size
  | .ok (.finish _) => True
  | .error error =>
    settings.faultPolicy = .raise ∧ ∃ fault, error = .decode fault ∧ fault.cause.IsNamed

/-- No step at a byte of the image fails. -/
theorem proceeds_of_position {reader : BitReader image} {offset : Nat}
    (hposition : reader.position = 8 * offset) (hstart : settings.start ≤ offset)
    (hlt : offset < image.size) : Proceeds settings reader := by
  have hnext : ∀ {next : BitReader image} {count : Nat},
      next.position = 8 * (offset + count) → 1 ≤ count → offset + count ≤ image.size →
      next.bitOffset = 0 ∧ reader.byteIndex + 1 ≤ next.byteIndex ∧
        next.byteIndex ≤ image.size := by
    intro next count hnext hpos hstop
    rw [BitReader.byteIndex_of_position hposition, BitReader.byteIndex_of_position hnext]
    exact ⟨BitReader.bitOffset_of_position hnext, by omega, hstop⟩
  rw [Proceeds]
  rcases step_cases hposition hstart hlt with
    ⟨i, next, lt, -, -, hstop, hstep, hplace⟩ | ⟨cause, houtcome, hcases⟩
  · rw [hstep]
    exact hnext hplace i.one_le_size hstop
  · rcases hcases with ⟨count, next, lt, -, -, hpos, hstop, hstep, hplace⟩ |
      ⟨-, hstep⟩ | ⟨hraise, hstep⟩
    · rw [hstep]
      exact hnext hplace hpos hstop
    · rw [hstep]
      trivial
    · rw [hstep]
      exact ⟨hraise, _, rfl, ByteString.isNamed_of_outcome houtcome⟩

/-- The passes of a sweep from a byte on are all at bytes that are left, there are not more of them
than bytes, and none of their steps fails. -/
theorem passes_spec {reader : BitReader image} {offset : Nat}
    (hposition : reader.position = 8 * offset) (hstart : settings.start ≤ offset)
    (hle : offset ≤ image.size) :
    (passes settings reader).length ≤ image.size - offset ∧
      ∀ pass ∈ passes settings reader, pass.bitOffset = 0 ∧ offset ≤ pass.byteIndex ∧
        pass.byteIndex < image.size ∧ Proceeds settings pass := by
  -- the induction is on the number of bytes that are left
  induction hleft : image.size - offset using Nat.strong_induction_on
    generalizing reader offset with
  | _ left ih =>
    rw [passes]
    by_cases hend : reader.atEnd = true
    · simp [if_pos hend]
    have hlt : offset < image.size := by
      have := mt (atEnd_iff hposition).2 hend
      omega
    have hindex := BitReader.byteIndex_of_position hposition
    have hproceeds := proceeds_of_position hposition hstart hlt
    have hfirst : reader.bitOffset = 0 ∧ offset ≤ reader.byteIndex ∧
        reader.byteIndex < image.size ∧ Proceeds settings reader :=
      ⟨BitReader.bitOffset_of_position hposition, hindex.ge, by omega, hproceeds⟩
    have hlast : [reader].length ≤ left ∧ ∀ pass ∈ [reader], pass.bitOffset = 0 ∧
        offset ≤ pass.byteIndex ∧ pass.byteIndex < image.size ∧ Proceeds settings pass := by
      refine ⟨by rw [List.length_singleton]; omega, fun pass hpass => ?_⟩
      rw [List.mem_singleton.1 hpass]
      exact hfirst
    rw [if_neg hend]
    cases hstep : (step settings reader).outcome with
    | error error => exact hlast
    | ok result =>
      cases result with
      | finish failure => exact hlast
      | proceed event next lt =>
        rw [Proceeds, hstep] at hproceeds
        obtain ⟨hzero, hforward, hstop⟩ := hproceeds
        obtain ⟨hlength, hpasses⟩ := ih (image.size - next.byteIndex) (by omega)
          (BitReader.position_of_bitOffset hzero) (by omega) hstop rfl
        refine ⟨by rw [List.length_cons]; omega, fun pass hpass => ?_⟩
        rcases List.mem_cons.1 hpass with rfl | hpass
        · exact hfirst
        · obtain ⟨hoffset, hge, hpass⟩ := hpasses pass hpass
          exact ⟨hoffset, by omega, hpass⟩

/-- All outcomes of decoding a binary: the error of a start behind its end; otherwise, after at most
one step for each byte that is left, all of which make progress, a program, or the fault of an
instruction where the settings ask for it. -/
theorem decode_total (settings : Settings.Program) (image : Image) :
    image.size < settings.start ∧
        decode settings image = .error (.startPastEnd settings.start image.size) ∨
      settings.start ≤ image.size ∧
        (∃ reader : BitReader image, BitReader.atByte? image settings.start 0 = some reader ∧
          events settings image =
            (passes settings reader).foldr (prepend settings) (pure []) ∧
          (passes settings reader).length ≤ image.size - settings.start ∧
          ∀ pass ∈ passes settings reader, pass.bitOffset = 0 ∧ settings.start ≤ pass.byteIndex ∧
            pass.byteIndex < image.size ∧ Proceeds settings pass) ∧
        ((∃ decoding, decode settings image = .ok decoding) ∨
          settings.faultPolicy = .raise ∧
            ∃ fault, decode settings image = .error (.decode fault) ∧ fault.cause.IsNamed) := by
  rcases decode_cases settings image with hpast | ⟨hstart, hcases⟩
  · exact .inl hpast
  refine .inr ⟨hstart, ?_, ?_⟩
  · obtain ⟨reader, hreader, hposition⟩ := BitReader.atByte?_zero hstart
    obtain ⟨hlength, hpasses⟩ := passes_spec hposition (Nat.le_refl _) hstart
    refine ⟨reader, hreader, ?_, hlength, hpasses⟩
    rw [events, if_pos hstart, hreader]
    exact eventsFrom_eq_foldr_passes settings reader
  · rcases hcases with ⟨events, program, -, -, hdecode⟩ |
      ⟨error, hdecode, hraise, offset, cause, -, -, houtcome, rfl⟩
    · exact .inl ⟨_, hdecode⟩
    · exact .inr ⟨hraise, _, hdecode, ByteString.isNamed_of_outcome houtcome⟩

end Program

end MachineCode
