import MachineCode.Proofs.Sweep.Ownership

/-!
# The layout of programs

When a program is put together, its parts are checked, and most checks compare neighbours only. This
is enough for the whole layout, whatever the parts are and wherever they come from, because an
instruction has at least one byte: no instruction begins before any of those in front of it ends. So
the instructions do not share bytes, they are at most as long together as the image, and they are
that long exactly where they leave no gaps. Their addresses are different, so that a table of the
instructions by address has one entry for each of them, and every instruction has its own bytes.

## Main definitions

* `Program.isAdmissible` : the checks that the parts of a program have to pass.
* `Program.IsLaidOut` : any two parts are in order, and all are within the image.
* `Program.byAddress` : the table of the instructions by address.
* `Program.HasLayout` : what the layout of a program gives.

## Main results

* `Program.isAdmissible_iff` : checking neighbours is enough.
* `Program.add_size_le` : the sizes of instructions that do not overlap, and their gaps.
* `Program.constructs_iff_isLaidOut` : which parts make a program, and the layout that it has.
-/

namespace MachineCode

/-! ### Neighbours -/

theorem Adjacent.iff_zip_tail {α : Type} {r : α → α → Prop} {items : List α} :
    Adjacent r items ↔ ∀ p ∈ items.zip items.tail, r p.1 p.2 := by
  induction items with
  | nil => simp [Adjacent]
  | cons a items ih =>
    cases items with
    | nil => simp [Adjacent]
    | cons b items =>
      rw [List.tail_cons, List.zip_cons_cons, List.forall_mem_cons]
      exact and_congr_right fun _ => ih

/-- A test of whether numbers are in order compares neighbours, strictly when it is asked to. -/
structure ComparesNeighbours (isSorted : Bool → List Nat → Bool) : Prop where
  strict : ∀ items, isSorted true items = true ↔ Adjacent (· < ·) items
  weak : ∀ items, isSorted false items = true ↔ Adjacent (· ≤ ·) items

/-- An instruction covers the addresses from its own one up to its end. -/
def Instruction.Covers (i : Instruction) (address : Nat) : Prop :=
  i.address ≤ address ∧ address < i.endAddress

theorem Instruction.pairwise_map_address {instructions : List Instruction}
    (h : instructions.Pairwise fun i j => i.endAddress ≤ j.address) :
    (instructions.map address).Pairwise (· < ·) :=
  List.pairwise_map.2 (h.imp fun {i _} hij => i.address_lt_endAddress.trans_le hij)

/-- The addresses from one up to another are all covered by instructions. -/
def LeaveNoGaps (instructions : List Instruction) (start stop : Nat) : Prop :=
  ∀ address, start ≤ address → address < stop → ∃ i ∈ instructions, i.Covers address

namespace Program

variable {origin : Int} {data : Image} {instructions : List Instruction} {failures : List Failure}
  {isSorted : Bool → List Nat → Bool}

/-! ### Putting a program together -/

/-- The checks that the parts of a program have to pass, given a test of whether numbers are in
order. -/
def isAdmissible (isSorted : Bool → List Nat → Bool) (origin : Int) (data : Image)
    (instructions : List Instruction) (failures : List Failure) : Bool :=
  decide (0 ≤ origin) &&
    isSorted true (instructions.map Instruction.address) &&
    (instructions.zip instructions.tail).all (fun p => decide (p.1.endAddress ≤ p.2.address)) &&
    instructions.all
      (fun i => decide (origin ≤ i.address ∧ (i.endAddress : Int) ≤ origin + data.size)) &&
    isSorted false (failures.map Failure.address) &&
    failures.all (fun f => decide (origin ≤ f.address ∧ (f.address : Int) ≤ origin + data.size))

/-- Any two parts of a program are in order, and all are within the image. -/
structure IsLaidOut (origin : Int) (data : Image) (instructions : List Instruction)
    (failures : List Failure) : Prop where
  origin_nonneg : 0 ≤ origin
  /-- No instruction begins before any of those in front of it ends. -/
  instructions_pairwise : instructions.Pairwise fun i j => i.endAddress ≤ j.address
  instructions_within : ∀ i ∈ instructions,
    origin ≤ i.address ∧ (i.endAddress : Int) ≤ origin + data.size
  failures_pairwise : failures.Pairwise fun f g => f.address ≤ g.address
  failures_within : ∀ f ∈ failures, origin ≤ f.address ∧ (f.address : Int) ≤ origin + data.size

/-- Checking neighbours is enough. -/
theorem isAdmissible_iff (h : ComparesNeighbours isSorted) :
    isAdmissible isSorted origin data instructions failures = true ↔
      IsLaidOut origin data instructions failures := by
  have hstrict : instructions.Pairwise (fun i j => i.endAddress ≤ j.address) →
      isSorted true (instructions.map Instruction.address) = true := fun hpairwise =>
    (h.strict _).2 (.of_pairwise (Instruction.pairwise_map_address hpairwise))
  have hweak : isSorted false (failures.map Failure.address) = true ↔
      failures.Pairwise fun f g => f.address ≤ g.address := by
    have hpairwise : Adjacent (· ≤ ·) (failures.map Failure.address) ↔
        (failures.map Failure.address).Pairwise (· ≤ ·) := Adjacent.iff_pairwise Nat.le_trans
    rw [h.weak, hpairwise, List.pairwise_map]
  have hpairs : (∀ p ∈ instructions.zip instructions.tail, p.1.endAddress ≤ p.2.address) ↔
      instructions.Pairwise fun i j => i.endAddress ≤ j.address :=
    Adjacent.iff_zip_tail.symm.trans Instruction.adjacent_iff_pairwise
  rw [isAdmissible]
  simp only [Bool.and_eq_true, decide_eq_true_iff, List.all_eq_true, hweak, hpairs, and_assoc]
  constructor
  · rintro ⟨horigin, -, hinstructions, hwithin, hfailures, hfailuresWithin⟩
    exact ⟨horigin, hinstructions, hwithin, hfailures, hfailuresWithin⟩
  · rintro ⟨horigin, hinstructions, hwithin, hfailures, hfailuresWithin⟩
    exact ⟨horigin, hstrict hinstructions, hinstructions, hwithin, hfailures, hfailuresWithin⟩

/-- The parts that make a program are those that are laid out, and it keeps them. -/
theorem ofParts?_eq_some_iff {program : Program} :
    ofParts? origin data instructions failures = some program ↔
      IsLaidOut origin data instructions failures ∧ (program.origin : Int) = origin ∧
        program.data = data ∧ program.instructions = instructions ∧
        program.failures = failures := by
  constructor
  · intro h
    unfold ofParts? at h
    split at h
    · rename_i hparts
      obtain ⟨⟨hadjacent, hwithin⟩, hfailures, hfailuresWithin⟩ := hparts
      split at h
      · rename_i horigin
        cases h
        refine ⟨⟨horigin, Instruction.adjacent_iff_pairwise.1 hadjacent, fun i hi => ?_,
          hfailures.pairwise Nat.le_trans, fun f hf => ?_⟩, by simp only; omega, rfl, rfl, rfl⟩
        · have := hwithin i hi
          omega
        · have := hfailuresWithin f hf
          omega
      · cases h
    · cases h
  · rintro ⟨h, rfl, rfl, rfl, rfl⟩
    obtain ⟨origin, data, instructions, failures, hadjacent, hwithin, hfailures, hends⟩ := program
    exact (dif_pos ⟨⟨hadjacent, hwithin⟩, hfailures, hends⟩).trans (if_pos h.origin_nonneg)

/-- All parts that are laid out make a program. -/
theorem exists_ofParts?_iff :
    (∃ program, ofParts? origin data instructions failures = some program) ↔
      IsLaidOut origin data instructions failures := by
  refine ⟨fun ⟨program, h⟩ => (ofParts?_eq_some_iff.1 h).1, fun h => ?_⟩
  have horigin : ((origin.toNat : Nat) : Int) = origin := Int.toNat_of_nonneg h.origin_nonneg
  refine ⟨⟨origin.toNat, data, instructions, failures, .of_pairwise h.instructions_pairwise,
    fun i hi => ?_, .of_pairwise h.failures_pairwise, fun f hf => ?_⟩,
    ofParts?_eq_some_iff.2 ⟨h, horigin, rfl, rfl, rfl⟩⟩
  · have := h.instructions_within i hi
    omega
  · have := h.failures_within f hf
    omega

/-! ### Sizes and gaps -/

theorem leaveNoGaps_nil_iff {start stop : Nat} : LeaveNoGaps [] start stop ↔ stop ≤ start := by
  constructor
  · intro h
    by_contra hlt
    obtain ⟨i, hi, -⟩ := h start (Nat.le_refl _) (by omega)
    cases hi
  · intro h address hge hlt
    omega

/-- The first instruction covers the first address and all up to its end, and the others, which
begin behind it, cover what is left. -/
theorem leaveNoGaps_cons_iff {i : Instruction} {start stop : Nat} (hstart : start ≤ i.address)
    (hstop : i.endAddress ≤ stop) (hfirst : ∀ j ∈ instructions, i.endAddress ≤ j.address) :
    LeaveNoGaps (i :: instructions) start stop ↔
      start = i.address ∧ LeaveNoGaps instructions i.endAddress stop := by
  have hlt := i.address_lt_endAddress
  constructor
  · intro h
    refine ⟨?_, fun address hge hlt' => ?_⟩
    · obtain ⟨j, hj, hcovers⟩ := h start (Nat.le_refl _) (by omega)
      rcases List.mem_cons.1 hj with rfl | hj
      · exact Nat.le_antisymm hstart hcovers.1
      · have := hfirst j hj
        have := hcovers.1
        omega
    · obtain ⟨j, hj, hcovers⟩ := h address (by omega) hlt'
      rcases List.mem_cons.1 hj with rfl | hj
      · exact absurd hcovers.2 (by omega)
      · exact ⟨j, hj, hcovers⟩
  · rintro ⟨rfl, h⟩ address hge hlt'
    by_cases hinside : address < i.endAddress
    · exact ⟨i, List.mem_cons_self, hge, hinside⟩
    · obtain ⟨j, hj, hcovers⟩ := h address (by omega) hlt'
      exact ⟨j, List.mem_cons_of_mem _ hj, hcovers⟩

/-- Instructions between two addresses that do not overlap are not longer together than the
distance, and as long as the distance where they leave no gaps. -/
theorem add_size_le {start stop : Nat} (hle : start ≤ stop)
    (hpairwise : instructions.Pairwise fun i j => i.endAddress ≤ j.address)
    (hwithin : ∀ i ∈ instructions, start ≤ i.address ∧ i.endAddress ≤ stop) :
    start + instructions.foldr (fun i total => i.size + total) 0 ≤ stop ∧
      (start + instructions.foldr (fun i total => i.size + total) 0 = stop ↔
        LeaveNoGaps instructions start stop) := by
  -- behind the first instruction, the start is its end
  induction instructions generalizing start with
  | nil =>
    rw [leaveNoGaps_nil_iff, List.foldr_nil]
    omega
  | cons i rest ih =>
    obtain ⟨hfirst, hrest⟩ := List.pairwise_cons.1 hpairwise
    obtain ⟨hstart, hstop⟩ := hwithin i List.mem_cons_self
    obtain ⟨hbound, hgaps⟩ := ih hstop hrest fun j hj =>
      ⟨hfirst j hj, (hwithin j (List.mem_cons_of_mem _ hj)).2⟩
    have hend : i.endAddress = i.address + i.size := rfl
    rw [leaveNoGaps_cons_iff hstart hstop hfirst, ← hgaps, List.foldr_cons]
    omega

/-! ### The table by address -/

/-- An instruction is put behind the others of a table under its address. Where the table has that
address already, its entry is replaced. -/
def insertEntry (entries : List (Nat × Instruction)) (i : Instruction) : List (Nat × Instruction) :=
  if entries.any (·.1 == i.address) then
    entries.map fun entry => if entry.1 = i.address then (i.address, i) else entry
  else
    entries ++ [(i.address, i)]

/-- The table of the instructions of a program by address. -/
def byAddress (program : Program) : List (Nat × Instruction) :=
  program.instructions.foldl insertEntry []

/-- Instructions with new and different addresses are put behind the others. -/
theorem foldl_insertEntry {entries : List (Nat × Instruction)}
    (hnew : ∀ entry ∈ entries, ∀ i ∈ instructions, entry.1 ≠ i.address)
    (hpairwise : instructions.Pairwise fun i j => i.address ≠ j.address) :
    instructions.foldl insertEntry entries =
      entries ++ instructions.map fun i => (i.address, i) := by
  induction instructions generalizing entries with
  | nil => exact (List.append_nil _).symm
  | cons i rest ih =>
    obtain ⟨hfirst, hrest⟩ := List.pairwise_cons.1 hpairwise
    have hany : ¬ entries.any (·.1 == i.address) = true := by
      rw [List.any_eq_true]
      rintro ⟨entry, hentry, heq⟩
      exact hnew entry hentry i List.mem_cons_self (beq_iff_eq.1 heq)
    rw [List.foldl_cons, insertEntry, if_neg hany, ih ?_ hrest, List.append_assoc]
    · rfl
    · intro entry hentry j hj
      rcases List.mem_append.1 hentry with hentry | hentry
      · exact hnew entry hentry j (List.mem_cons_of_mem _ hj)
      · rw [List.mem_singleton.1 hentry]
        exact hfirst j hj

theorem pairwise_addresses (program : Program) : program.addresses.Pairwise (· < ·) :=
  Instruction.pairwise_map_address program.pairwise_instructions

theorem byAddress_eq (program : Program) :
    program.byAddress = program.instructions.map fun i => (i.address, i) := by
  have hpairwise : program.instructions.Pairwise fun i j => i.address ≠ j.address :=
    (List.pairwise_map.1 program.pairwise_addresses).imp fun hij => hij.ne
  exact foldl_insertEntry (by simp) hpairwise

theorem lookup_map_address (instructions : List Instruction) (address : Nat) :
    (instructions.map fun i => (i.address, i)).lookup address =
      instructions.find? fun i => (i.address : Int) == address := by
  induction instructions with
  | nil => rfl
  | cons i rest ih =>
    rw [List.map_cons, List.lookup_cons, List.find?_cons, ih]
    by_cases h : address = i.address
    · subst h
      simp only [beq_self_eq_true]
    · have hkey : (address == i.address) = false := beq_eq_false_iff_ne.2 h
      have hfound : ((i.address : Int) == address) = false :=
        beq_eq_false_iff_ne.2 fun heq => h (Int.ofNat_inj.1 heq).symm
      rw [hkey, hfound]

theorem lookup_byAddress (program : Program) (address : Nat) :
    program.byAddress.lookup address = program.at? address := by
  rw [byAddress_eq, lookup_map_address, at?]

/-! ### The layout -/

/-- What the layout of a program gives. -/
structure HasLayout (program : Program) : Prop where
  size_le : program.size ≤ program.data.size
  /-- The instructions are as long as the image exactly where they leave no gaps. -/
  size_eq_iff : program.size = program.data.size ↔
    LeaveNoGaps program.instructions program.origin program.endAddress
  /-- The table has one entry for each instruction. -/
  entries : program.byAddress = program.instructions.map fun i => (i.address, i)
  /-- The entries are in the order of their addresses. -/
  ascending : (program.byAddress.map Prod.fst).Pairwise (· < ·)
  found : ∀ i ∈ program.instructions, program.byAddress.lookup i.address = some i
  /-- No other address finds an instruction. -/
  lookup : ∀ address : Nat, program.byAddress.lookup address = program.at? address
  /-- The bytes of an instruction are a slice of the image with both ends inside of it. -/
  bytes : ∀ i ∈ program.instructions,
    i.address - program.origin + i.size ≤ program.data.size ∧
      program.bytesOf i = program.data.extract (i.address - program.origin)
        (i.address - program.origin + i.size)
  bytes_size : ∀ i ∈ program.instructions, (program.bytesOf i).size = i.size
  /-- No address is covered by two instructions. -/
  disjoint : program.instructions.Pairwise fun i j =>
    ∀ address, ¬ (i.Covers address ∧ j.Covers address)

theorem hasLayout (program : Program) : HasLayout program := by
  have hsize := add_size_le (Nat.le_add_right program.origin program.data.size)
    program.pairwise_instructions program.instructions_within
  constructor
  case size_le => exact Nat.le_of_add_le_add_left hsize.1
  case size_eq_iff => exact Nat.add_left_cancel_iff.symm.trans hsize.2
  case entries => exact program.byAddress_eq
  case ascending =>
    rw [byAddress_eq, List.map_map]
    exact program.pairwise_addresses
  case found =>
    intro i hi
    rw [lookup_byAddress]
    exact at?_eq_some_iff.2 ⟨hi, rfl⟩
  case lookup => exact program.lookup_byAddress
  case bytes =>
    intro i hi
    obtain ⟨hstart, hstop⟩ := program.instructions_within i hi
    exact bytesOf_eq_extract hstart hstop
  case bytes_size =>
    intro i hi
    obtain ⟨hstart, hstop⟩ := program.instructions_within i hi
    obtain ⟨hle, hbytes⟩ := bytesOf_eq_extract hstart hstop
    rw [hbytes, Array.size_extract]
    omega
  case disjoint =>
    refine program.pairwise_instructions.imp fun hij address ⟨hi, hj⟩ => ?_
    have := hi.2
    have := hj.1
    omega

/-- Which parts make a program, and the layout that it has. The checks, which compare neighbours,
admit exactly the parts that are laid out, and these make a program, which keeps them. Every program
that is made has the layout. -/
theorem constructs_iff_isLaidOut (h : ComparesNeighbours isSorted) (origin : Int) (data : Image)
    (instructions : List Instruction) (failures : List Failure) :
    (isAdmissible isSorted origin data instructions failures = true ↔
        IsLaidOut origin data instructions failures) ∧
      ((∃ program, ofParts? origin data instructions failures = some program) ↔
        IsLaidOut origin data instructions failures) ∧
      ∀ program, ofParts? origin data instructions failures = some program →
        ((program.origin : Int) = origin ∧ program.data = data ∧
          program.instructions = instructions ∧ program.failures = failures) ∧
        HasLayout program :=
  ⟨isAdmissible_iff h, exists_ofParts?_iff,
    fun program hprogram => ⟨(ofParts?_eq_some_iff.1 hprogram).2, program.hasLayout⟩⟩

/-- Two instructions with a gap between them, where a failure is, make a program. In the opposite
order they do not. -/
theorem constructs_iff_isLaidOut_gap :
    ∃ (isSorted : Bool → List Nat → Bool) (i j : Instruction) (f : Failure) (program : Program),
      ComparesNeighbours isSorted ∧ i.endAddress = 258 ∧ f.address = 258 ∧ j.address = 259 ∧
        isAdmissible isSorted 256 #[0x89, 0xD8, 0x00, 0xB0, 0x05] [i, j] [f] = true ∧
        ofParts? 256 #[0x89, 0xD8, 0x00, 0xB0, 0x05] [i, j] [f] = some program ∧
        HasLayout program ∧ ¬ IsLaidOut 256 #[0x89, 0xD8, 0x00, 0xB0, 0x05] [j, i] [f] := by
  let isSorted : Bool → List Nat → Bool := fun strict items =>
    if strict then decide (Adjacent (· < ·) items) else decide (Adjacent (· ≤ ·) items)
  let i : Instruction := ⟨256, 2, .moveRegisterMemory, .register ⟨.word, 0⟩,
    .register ⟨.word, 3⟩, by decide, by decide, rfl⟩
  let j : Instruction := ⟨259, 2, .moveImmediateRegister, .register ⟨.byte, 0⟩,
    .immediate (.byte 5), by decide, by decide, rfl⟩
  let f : Failure := ⟨258, 2, .ofCause 5 2 (.unknownOpcode 0 4)⟩
  have hsorted : ComparesNeighbours isSorted :=
    ⟨fun items => decide_eq_true_iff, fun items => decide_eq_true_iff⟩
  obtain ⟨hchecks, hexists, hlayout⟩ :=
    constructs_iff_isLaidOut hsorted 256 #[0x89, 0xD8, 0x00, 0xB0, 0x05] [i, j] [f]
  have hadmissible :
      isAdmissible isSorted 256 #[0x89, 0xD8, 0x00, 0xB0, 0x05] [i, j] [f] = true := by decide
  have hrefused : ¬ IsLaidOut 256 #[0x89, 0xD8, 0x00, 0xB0, 0x05] [j, i] [f] := by
    rw [← (constructs_iff_isLaidOut hsorted 256 _ [j, i] [f]).1]
    decide
  obtain ⟨program, hprogram⟩ := hexists.2 (hchecks.1 hadmissible)
  exact ⟨isSorted, i, j, f, program, hsorted, rfl, rfl, rfl, hadmissible, hprogram,
    (hlayout program hprogram).2, hrefused⟩

end Program

end MachineCode
