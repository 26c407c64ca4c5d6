import MachineCode.Decoder.Field

/-!
# Outcomes of decoders

How the outcome of a composed decoder follows from those of its parts, and which faults the fields
of an instruction can have. A field is either there or missing, so that the one fault of a field
decoder is a truncated image.

## Main results

* `Decoder.bind_eq_ok_iff`, `Decoder.bind_eq_error_iff` : the outcomes of one decoder after another.
* `Decoder.OnlyTruncates` : every fault is that of a truncated image.
* `Decoder.bytesSince_eq_ok_iff` : the number of whole bytes read since an earlier position.
-/

namespace MachineCode

/-- The fault says that an image of `size` bytes ends inside a field. -/
def Fault.IsTruncation (size : Nat) (fault : Fault) : Prop :=
  ∃ requested available : Nat,
    available < requested ∧ fault.offset = size ∧ fault.cause = .truncated requested available

theorem Fault.IsTruncation.skip?_eq_none {size : Nat} {fault : Fault}
    (h : fault.IsTruncation size) :
    fault.skip? = none := by
  obtain ⟨_, _, _, _, hcause⟩ := h
  simp only [Fault.skip?, hcause]

namespace Decoder

variable {image : Image} {α β : Type}

/-! ### Composition

The laws of composition hold for every state that is read from, not only for a position in an
image. -/

section Composition

variable {σ ε : Type}

theorem bind_apply (x : StateT σ (Except ε) α) (f : α → StateT σ (Except ε) β) (state : σ) :
    (x >>= f) state = (x state).bind fun p => f p.1 p.2 :=
  rfl

theorem pure_apply (a : α) (state : σ) :
    (pure a : StateT σ (Except ε) α) state = .ok (a, state) :=
  rfl

theorem throw_apply (error : ε) (state : σ) :
    (throw error : StateT σ (Except ε) α) state = .error error :=
  rfl

theorem get_apply (state : σ) : (get : StateT σ (Except ε) σ) state = .ok (state, state) :=
  rfl

theorem set_apply (next state : σ) :
    (set next : StateT σ (Except ε) PUnit) state = .ok (.unit, next) :=
  rfl

theorem bind_of_ok {x : StateT σ (Except ε) α} {f : α → StateT σ (Except ε) β} {state next : σ}
    {a : α} (h : x state = .ok (a, next)) : (x >>= f) state = f a next := by
  rw [bind_apply, h]
  rfl

theorem bind_of_error {x : StateT σ (Except ε) α} {f : α → StateT σ (Except ε) β} {state : σ}
    {error : ε} (h : x state = .error error) : (x >>= f) state = .error error := by
  rw [bind_apply, h]
  rfl

/-- One computation after another succeeds when both do, the second from where the first one
ends. -/
theorem bind_eq_ok_iff {x : StateT σ (Except ε) α} {f : α → StateT σ (Except ε) β} {state : σ}
    {result : β × σ} :
    (x >>= f) state = .ok result ↔ ∃ a next, x state = .ok (a, next) ∧ f a next = .ok result := by
  rw [bind_apply]
  constructor
  · intro h
    cases hx : x state with
    | error e =>
      rw [hx] at h
      cases h
    | ok p =>
      rw [hx] at h
      exact ⟨p.1, p.2, rfl, h⟩
  · rintro ⟨a, next, hx, hf⟩
    rw [hx]
    exact hf

/-- One computation after another fails when the first one does, or when the second one does from
where the first ends. -/
theorem bind_eq_error_iff {x : StateT σ (Except ε) α} {f : α → StateT σ (Except ε) β} {state : σ}
    {error : ε} :
    (x >>= f) state = .error error ↔
      x state = .error error ∨ ∃ a next, x state = .ok (a, next) ∧ f a next = .error error := by
  rw [bind_apply]
  cases hx : x state with
  | error e =>
    constructor
    · intro h
      cases h
      exact .inl rfl
    · rintro (h | ⟨_, _, h, _⟩)
      · cases h
        rfl
      · cases h
  | ok p =>
    constructor
    · intro h
      exact .inr ⟨p.1, p.2, rfl, h⟩
    · rintro (h | ⟨a, next, h, hf⟩)
      · cases h
      · cases h
        exact hf

end Composition

theorem instructionStart_eq_ok_iff {decoder : Decoder image α} {reader : BitReader image}
    {result : α × BitReader image} :
    instructionStart decoder reader = .ok result ↔ decoder reader = .ok result := by
  unfold instructionStart
  cases decoder reader with
  | error e =>
    constructor
    · intro h
      cases h
    · intro h
      cases h
  | ok p => exact Iff.rfl

/-- Naming the start of an instruction changes every error accordingly. -/
theorem instructionStart_eq_error_iff {decoder : Decoder image α} {reader : BitReader image}
    {error : Error} :
    instructionStart decoder reader = .error error ↔
      ∃ cause, decoder reader = .error cause ∧ cause.startedAt reader.byteIndex = error := by
  unfold instructionStart
  cases decoder reader with
  | error e =>
    constructor
    · intro h
      cases h
      exact ⟨e, rfl, rfl⟩
    · rintro ⟨cause, hcause, rfl⟩
      cases hcause
      rfl
  | ok p =>
    constructor
    · intro h
      cases h
    · rintro ⟨_, hcause, _⟩
      cases hcause

/-! ### Truncation -/

/-- Every fault of the decoder is that of a truncated image. -/
def OnlyTruncates (decoder : Decoder image α) : Prop :=
  ∀ reader fault, decoder reader = .error (.decode fault) → fault.IsTruncation image.size

theorem onlyTruncates_pure (a : α) : OnlyTruncates (pure a : Decoder image α) := by
  intro reader fault h
  cases h

theorem onlyTruncates_get : OnlyTruncates (get : Decoder image (BitReader image)) := by
  intro reader fault h
  cases h

theorem onlyTruncates_set (next : BitReader image) :
    OnlyTruncates (set next : Decoder image PUnit) := by
  intro reader fault h
  cases h

theorem onlyTruncates_outOfRange : OnlyTruncates (throw .outOfRange : Decoder image α) := by
  intro reader fault h
  cases h

theorem OnlyTruncates.bind {x : Decoder image α} {f : α → Decoder image β} (hx : OnlyTruncates x)
    (hf : ∀ a, OnlyTruncates (f a)) : OnlyTruncates (x >>= f) := by
  intro reader fault h
  rcases bind_eq_error_iff.1 h with h | ⟨a, next, _, h⟩
  · exact hx reader fault h
  · exact hf a next fault h

theorem onlyTruncates_require (value? : Option α) :
    OnlyTruncates (require value? : Decoder image α) := by
  cases value? with
  | some value => exact onlyTruncates_pure value
  | none => exact onlyTruncates_outOfRange

theorem onlyTruncates_take (count : Nat) : OnlyTruncates (take count : Decoder image _) := by
  refine onlyTruncates_get.bind fun start => ?_
  split
  · split
    · exact (onlyTruncates_require _).bind fun _ => (onlyTruncates_require _).bind fun next =>
        (onlyTruncates_set next).bind fun _ => onlyTruncates_pure _
    · intro reader fault h
      cases h
      exact ⟨count, start.remaining, by omega, rfl, rfl⟩
  · exact onlyTruncates_outOfRange

theorem onlyTruncates_flag : OnlyTruncates (flag : Decoder image _) :=
  (onlyTruncates_take 1).bind fun _ => onlyTruncates_pure _

theorem onlyTruncates_register (width : Width) :
    OnlyTruncates (register width : Decoder image _) := by
  refine (onlyTruncates_take 3).bind fun number reader fault h => ?_
  unfold Register.ofNumber at h
  split at h <;> cases h

theorem onlyTruncates_base : OnlyTruncates (base : Decoder image _) := by
  refine (onlyTruncates_take 3).bind fun number reader fault h => ?_
  unfold Base.ofNumber at h
  split at h <;> cases h

theorem onlyTruncates_immediate (width : Width) :
    OnlyTruncates (immediate width : Decoder image _) := by
  refine (onlyTruncates_take 8).bind fun low => ?_
  cases width with
  | byte => exact onlyTruncates_require _
  | word => exact (onlyTruncates_take 8).bind fun high => onlyTruncates_require _

theorem onlyTruncates_effectiveAddress (settings : Settings.Decoder)
    (displacement : DisplacementMode) :
    OnlyTruncates (effectiveAddress settings displacement : Decoder image _) := by
  refine onlyTruncates_base.bind fun base => ?_
  cases displacement with
  | absent =>
    dsimp only
    split
    · exact (onlyTruncates_immediate .word).bind fun _ => onlyTruncates_require _
    · exact onlyTruncates_pure _
  | byte => exact (onlyTruncates_immediate .byte).bind fun _ => onlyTruncates_pure _
  | word => exact (onlyTruncates_immediate .word).bind fun _ => onlyTruncates_pure _

theorem onlyTruncates_location (settings : Settings.Decoder) (mode : Mode) (width : Width) :
    OnlyTruncates (location settings mode width : Decoder image _) := by
  cases mode with
  | register => exact (onlyTruncates_register width).bind fun _ => onlyTruncates_pure _
  | memory displacement =>
    exact (onlyTruncates_effectiveAddress settings displacement).bind fun _ => onlyTruncates_pure _

theorem onlyTruncates_locationOfNumber (settings : Settings.Decoder) (number : Int)
    (width : Width) : OnlyTruncates (locationOfNumber settings number width : Decoder image _) := by
  unfold locationOfNumber
  split
  · exact onlyTruncates_location settings _ width
  · exact onlyTruncates_outOfRange

theorem OnlyTruncates.skip?_eq_none {decoder : Decoder image α} (hd : OnlyTruncates decoder)
    {reader : BitReader image} {fault : Fault} (h : decoder reader = .error (.decode fault)) :
    fault.skip? = none :=
  (hd reader fault h).skip?_eq_none

/-! ### Whole bytes -/

theorem bytesSince_eq_ok_iff {start reader : BitReader image} {result : Nat × BitReader image} :
    bytesSince start reader = .ok result ↔
      start.position < reader.position ∧ (reader.position - start.position) % 8 = 0 ∧
        result = ((reader.position - start.position) / 8, reader) := by
  rw [bytesSince, bind_eq_ok_iff]
  simp only [get_apply, Except.ok.injEq, Prod.mk.injEq]
  constructor
  · rintro ⟨_, _, ⟨rfl, rfl⟩, h⟩
    split at h
    · rename_i hcount
      cases h
      exact ⟨by omega, hcount.2, rfl⟩
    · cases h
  · rintro ⟨hlt, hmod, rfl⟩
    refine ⟨reader, reader, ⟨rfl, rfl⟩, ?_⟩
    rw [if_pos ⟨by omega, hmod⟩, pure_apply]

end Decoder

end MachineCode
