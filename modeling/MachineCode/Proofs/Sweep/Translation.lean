import MachineCode.Proofs.Sweep.Run

/-!
# Translations of sweeps

What a sweep finds at a byte depends on the bytes from there on, and on nothing in front of them.
The same bytes behind others therefore give the same events, with other places: addresses are
counted from where the program is loaded, and offsets from the start of the binary.

## Main definitions

* `Fault.shift`, `Failure.shift`, `Instruction.shift`, `Program.Event.shift` : the same at another
  place.
* `Program.Translation` : the same bytes, behind others.

## Main results

* `Program.Advances.shift` : a part of a run over bytes is one over the same bytes behind others.
* `Program.Sweeps.shift` : so is a whole run.
-/

namespace MachineCode

/-- The same fault at a later offset. -/
def Fault.shift (offsets : Nat) (fault : Fault) : Fault where
  offset := fault.offset + offsets
  cause := fault.cause
  starts := fault.starts.map (· + offsets)

@[simp]
theorem Fault.message_shift (offsets : Nat) (fault : Fault) :
    (fault.shift offsets).message =
      fault.cause.text ++ " at offset " ++ Numeral.offset (fault.offset + offsets) :=
  rfl

@[simp]
theorem Fault.notes_shift (offsets : Nat) (fault : Fault) :
    (fault.shift offsets).notes =
      fault.starts.map fun start => startText (start + offsets) := by
  rw [notes, shift, List.map_map]
  rfl

@[simp]
theorem Fault.skip?_shift (offsets : Nat) (fault : Fault) :
    (fault.shift offsets).skip? = fault.skip? :=
  rfl

theorem Fault.NamesPlaces.shift {fault : Fault} (h : fault.NamesPlaces) (offsets : Nat) :
    (fault.shift offsets).NamesPlaces := by
  obtain ⟨n, hoffset, -⟩ := h.message
  refine namesPlaces_of_offset (n := n + offsets) ?_
  rw [Fault.shift, hoffset, Nat.cast_add]

theorem Fault.ofCause_add (size start offsets : Nat) (cause : Cause) :
    ofCause (size + offsets) (start + offsets) cause =
      (ofCause size start cause).shift offsets := by
  cases cause <;> simp [ofCause, shift]

/-- The same failure at a later address and at a later offset. -/
def Failure.shift (addresses offsets : Nat) (failure : Failure) : Failure where
  address := failure.address + addresses
  offset := failure.offset + offsets
  fault := failure.fault.shift offsets

@[simp]
theorem Failure.fault_shift (addresses offsets : Nat) (failure : Failure) :
    (failure.shift addresses offsets).fault = failure.fault.shift offsets :=
  rfl

/-- The same instruction at a later address. -/
def Instruction.shift (addresses : Nat) (i : Instruction) : Instruction :=
  { i with address := i.address + addresses }

@[simp]
theorem Instruction.address_shift (addresses : Nat) (i : Instruction) :
    (i.shift addresses).address = i.address + addresses :=
  rfl

@[simp]
theorem Instruction.size_shift (addresses : Nat) (i : Instruction) :
    (i.shift addresses).size = i.size :=
  rfl

namespace Program

/-- The same event at a later address and at a later offset. -/
def Event.shift (addresses offsets : Nat) : Event → Event
  | .decoded i => .decoded (i.shift addresses)
  | .failed f => .failed (f.shift addresses offsets)

theorem Sweeps.namesPlaces {settings : Settings.Program} {image : Image} {offset : Nat}
    {events : List Event} (h : Sweeps settings image offset events) :
    ∀ f ∈ events.filterMap Event.failure?, f.fault.NamesPlaces := by
  induction h with
  | done => simp
  | decoded outcome address rest ih => exact ih
  | skipped outcome policy skip pos rest ih =>
    exact List.forall_mem_cons.2 ⟨Fault.namesPlaces_ofCause .., ih⟩
  | halted lt outcome halt =>
    exact List.forall_mem_singleton.2 (Fault.namesPlaces_ofCause ..)

theorem filterMap_instruction?_shift (addresses offsets : Nat) (events : List Event) :
    (events.map (Event.shift addresses offsets)).filterMap Event.instruction? =
      (events.filterMap Event.instruction?).map (Instruction.shift addresses) := by
  rw [List.filterMap_map, List.map_filterMap]
  congr 1
  funext event
  cases event <;> rfl

theorem filterMap_failure?_shift (addresses offsets : Nat) (events : List Event) :
    (events.map (Event.shift addresses offsets)).filterMap Event.failure? =
      (events.filterMap Event.failure?).map (Failure.shift addresses offsets) := by
  rw [List.filterMap_map, List.map_filterMap]
  congr 1
  funext event
  cases event <;> rfl

/-- The bytes of an image are those of another one behind the bytes `front`, and their addresses
differ by a fixed number. -/
structure Translation (settings : Settings.Program) (image : Image) (elsewhere : Settings.Program)
    (other : Image) (front : List UInt8) (addresses : Nat) : Prop where
  decoder : elsewhere.decoder = settings.decoder
  faultPolicy : elsewhere.faultPolicy = settings.faultPolicy
  bytes : other.toList = front ++ image.toList
  start : settings.start = 0
  start_le : elsewhere.start ≤ front.length
  origin : elsewhere.origin + (front.length - elsewhere.start) = settings.origin + addresses

namespace Translation

variable {settings elsewhere : Settings.Program} {image other : Image} {front : List UInt8}
  {addresses : Nat}

theorem size (h : Translation settings image elsewhere other front addresses) :
    other.size = image.size + front.length := by
  have hlength := congrArg List.length h.bytes
  simp only [List.length_append, Array.length_toList] at hlength
  omega

theorem drop (h : Translation settings image elsewhere other front addresses) (offset : Nat) :
    other.toList.drop (offset + front.length) = image.toList.drop offset := by
  rw [h.bytes, Nat.add_comm, List.drop_length_add_append]

theorem addressAt (h : Translation settings image elsewhere other front addresses) (offset : Nat) :
    elsewhere.addressAt (offset + front.length) = settings.addressAt offset + addresses := by
  have hstart := h.start
  have hle := h.start_le
  have horigin := h.origin
  simp only [Settings.Program.addressAt]
  omega

theorem outcome (h : Translation settings image elsewhere other front addresses) (offset : Nat) :
    ByteString.outcome elsewhere.decoder (other.toList.drop (offset + front.length)) =
      ByteString.outcome settings.decoder (image.toList.drop offset) := by
  rw [h.decoder, h.drop]

theorem ofCause (h : Translation settings image elsewhere other front addresses) (offset : Nat)
    (cause : Fault.Cause) :
    Fault.ofCause other.size (offset + front.length) cause =
      (Fault.ofCause image.size offset cause).shift front.length := by
  rw [h.size, Fault.ofCause_add]

theorem failureOf (h : Translation settings image elsewhere other front addresses) (offset : Nat)
    (cause : Fault.Cause) :
    failureOf elsewhere other (offset + front.length) cause =
      (Program.failureOf settings image offset cause).shift addresses front.length := by
  rw [Program.failureOf, h.addressAt, h.ofCause]
  rfl

end Translation

section Runs

variable {settings elsewhere : Settings.Program} {image other : Image} {front : List UInt8}
  {addresses offset stop : Nat} {events : List Event}

/-- A part of a sweep over bytes is one over the same bytes behind others. -/
theorem Advances.shift (h : Advances settings image offset events stop)
    (ht : Translation settings image elsewhere other front addresses) :
    Advances elsewhere other (offset + front.length)
      (events.map (Event.shift addresses front.length)) (stop + front.length) := by
  induction h with
  | refl => exact .refl _
  | @decoded offset stop i events outcome address rest ih =>
    refine .decoded ((ht.outcome offset).trans outcome) ?_ ?_
    · rw [ht.addressAt, Instruction.address_shift, address]
    · rwa [Instruction.size_shift, Nat.add_right_comm]
  | @skipped offset count stop cause events outcome policy skip pos rest ih =>
    rw [Nat.add_right_comm] at ih
    rw [List.map_cons, Event.shift, ← ht.failureOf]
    refine .skipped ((ht.outcome offset).trans outcome) (ht.faultPolicy.trans policy) ?_ pos ih
    rw [ht.ofCause, Fault.skip?_shift, skip]

/-- What is found in bytes behind others is what is found in them alone, at later places. -/
theorem Sweeps.shift (h : Sweeps settings image offset events)
    (ht : Translation settings image elsewhere other front addresses) :
    Sweeps elsewhere other (offset + front.length)
      (events.map (Event.shift addresses front.length)) := by
  rcases h.exists_advances with hall | ⟨begun, stop, cause, hbegun, hlt, houtcome, hhalt, rfl⟩
  · have hshifted := hall.shift ht
    rw [← ht.size] at hshifted
    exact hshifted.sweeps_of_size
  · rw [List.map_append, List.map_singleton, Event.shift, ← ht.failureOf]
    refine (hbegun.shift ht).sweeps (.halted ?_ ((ht.outcome stop).trans houtcome) ?_)
    · rw [ht.size]
      omega
    · rwa [ht.ofCause, Fault.skip?_shift, ht.faultPolicy]

end Runs

end Program

end MachineCode
