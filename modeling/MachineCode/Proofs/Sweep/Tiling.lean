import MachineCode.Proofs.Sweep.Run

/-!
# Tilings of a program

Instructions and failures of a program are kept in two lists, but a sweep meets them in one order,
in which each of them begins where the one before it ends. This file describes that order by
addresses alone: the items that tile the addresses from one up to another. The order is lost in the
two lists, and it is found again by merging them.

## Main definitions

* `Program.Item` : an instruction or a failure.
* `Program.Tiles` : items that lie one behind the other from an address on.
* `Program.items` : the items of a program in the order of their addresses.

## Main results

* `Program.Sweeps.tiles` : the items of a run tile the addresses of the bytes that are left.
* `Program.merge_of_pairwise_lt` : merging their instructions and failures gives the items back.
-/

namespace MachineCode

namespace Program

/-- What a sweep finds at an address: an instruction, or none. -/
inductive Item where
  | instruction (instruction : Instruction)
  | failure (failure : Failure)
  deriving DecidableEq

namespace Item

/-- The address at which an item begins. -/
def address : Item → Nat
  | .instruction i => i.address
  | .failure f => f.address

@[simp] theorem address_instruction (i : Instruction) : (instruction i).address = i.address := rfl

@[simp] theorem address_failure (f : Failure) : (failure f).address = f.address := rfl

/-- The address at which an item ends. The end of a failure is known where there is a number of
bytes to step over. -/
def end? : Item → Option Int
  | .instruction i => some i.endAddress
  | .failure f => f.fault.skip?.map (f.address + ·)

/-- The image ends inside an item. -/
def IsTruncation : Item → Prop
  | .instruction _ => False
  | .failure f => f.fault.cause.IsTruncation

/-- An item covers the addresses from its own one up to its end. -/
def Covers (item : Item) (address : Nat) : Prop :=
  item.address ≤ address ∧ ∃ stop, item.end? = some stop ∧ address < stop

/-- The instruction of an item, if it has one. -/
def instruction? : Item → Option Instruction
  | .instruction i => some i
  | .failure _ => none

/-- The failure of an item, if it has one. -/
def failure? : Item → Option Failure
  | .instruction _ => none
  | .failure f => some f

/-- The image ends inside an item exactly where its end is not known. -/
theorem end?_eq_none_iff {item : Item} : item.end? = none ↔ item.IsTruncation := by
  cases item with
  | instruction i => simp [end?, IsTruncation]
  | failure f =>
    rw [end?, Option.map_eq_none_iff]
    exact Fault.skip?_eq_none_iff

end Item

/-- The item that an event records. -/
def Event.item : Event → Item
  | .decoded i => .instruction i
  | .failed f => .failure f

/-- The items of a program in the order of their addresses. -/
def items (program : Program) : List Item :=
  List.merge (program.instructions.map .instruction) (program.failures.map .failure)
    fun a b => decide (a.address ≤ b.address)

/-- Items that lie one behind the other from an address on, up to the address `stop` or to a failure
that is not stepped over. -/
inductive Tiles (policy : Settings.FaultPolicy) (stop : Nat) : Nat → List Item → Prop
  | done : Tiles policy stop stop []
  | instruction {i : Instruction} {items : List Item}
      (rest : Tiles policy stop i.endAddress items) :
      Tiles policy stop i.address (.instruction i :: items)
  | failure {f : Failure} {next : Nat} {items : List Item} (skips : policy = .skip)
      (ends : (Item.failure f).end? = some (next : Int)) (lt : f.address < next)
      (rest : Tiles policy stop next items) :
      Tiles policy stop f.address (.failure f :: items)
  | halt {f : Failure} (lt : f.address < stop)
      (halts : policy = .stop ∨ policy = .skip ∧ (Item.failure f).end? = none) :
      Tiles policy stop f.address [.failure f]

variable {settings : Settings.Program} {image : Image} {policy : Settings.FaultPolicy}
  {start stop : Nat} {items : List Item}

/-- The items of a run tile the addresses of the bytes that are left. -/
theorem Sweeps.tiles {offset : Nat} {events : List Event} (h : Sweeps settings image offset events)
    (hstart : settings.start ≤ offset) :
    Tiles settings.faultPolicy (settings.addressAt image.size) (settings.addressAt offset)
      (events.map Event.item) := by
  induction h with
  | done => exact .done
  | @decoded offset i events outcome address rest ih =>
    have hend : settings.addressAt (offset + i.size) = i.endAddress := by
      rw [Settings.Program.addressAt] at address ⊢
      rw [Instruction.endAddress]
      omega
    rw [← address]
    have hrest := ih (by omega)
    rw [hend] at hrest
    exact .instruction hrest
  | @skipped offset count cause events outcome policy skip pos rest ih =>
    have hnext : settings.addressAt (offset + count) = settings.addressAt offset + count := by
      simp only [Settings.Program.addressAt]
      omega
    have hrest := ih (by omega)
    rw [hnext] at hrest
    refine .failure (f := failureOf settings image offset cause) policy ?_
      (Nat.lt_add_of_pos_right pos) hrest
    simp only [Item.end?, failureOf, skip, Option.map_some]
    rfl
  | @halted offset cause lt outcome halt =>
    refine .halt (f := failureOf settings image offset cause) ?_ (halt.imp_right ?_)
    · simp only [failureOf]
      simp only [Settings.Program.addressAt]
      omega
    · rintro ⟨hskip, hnone⟩
      refine ⟨hskip, ?_⟩
      rw [Item.end?, failureOf, hnone]
      rfl

namespace Tiles

theorem start_le (h : Tiles policy stop start items) : start ≤ stop := by
  induction h with
  | done => exact Nat.le_refl _
  | @instruction i items rest ih =>
    rw [Instruction.endAddress] at ih
    omega
  | failure skips ends lt rest ih => omega
  | halt lt halts => omega

/-- Items begin between the two addresses. -/
theorem address_bounds (h : Tiles policy stop start items) :
    ∀ item ∈ items, start ≤ item.address ∧ item.address < stop := by
  induction h with
  | done => simp
  | @instruction i items rest ih =>
    have hstop := rest.start_le
    have hsize := i.one_le_size
    rw [Instruction.endAddress] at ih hstop
    intro item hitem
    rcases List.mem_cons.1 hitem with rfl | hitem
    · rw [Item.address_instruction]
      omega
    · have := ih item hitem
      omega
  | @failure f next items skips ends lt rest ih =>
    have hstop := rest.start_le
    intro item hitem
    rcases List.mem_cons.1 hitem with rfl | hitem
    · rw [Item.address_failure]
      omega
    · have := ih item hitem
      omega
  | halt lt halts =>
    intro item hitem
    rw [List.mem_singleton.1 hitem]
    exact ⟨Nat.le_refl _, lt⟩

theorem pairwise_lt (h : Tiles policy stop start items) :
    items.Pairwise fun a b => a.address < b.address := by
  induction h with
  | done => exact .nil
  | @instruction i items rest ih =>
    refine .cons (fun item hitem => ?_) ih
    have hsize := i.one_le_size
    have hbounds := rest.address_bounds item hitem
    rw [Instruction.endAddress] at hbounds
    rw [Item.address_instruction]
    omega
  | failure skips ends lt rest ih =>
    refine .cons (fun item hitem => ?_) ih
    have hbounds := rest.address_bounds item hitem
    exact lt.trans_le hbounds.1
  | halt lt halts => exact List.pairwise_singleton _ _

theorem head_address (h : Tiles policy stop start items) :
    ∀ item, items.head? = some item → item.address = start := by
  cases h <;> simp

theorem start_eq_of_nil (h : Tiles policy stop start []) : start = stop := by
  cases h
  rfl

/-- Every item begins where the one before it ends. -/
theorem adjacent (h : Tiles policy stop start items) :
    Adjacent (fun a b => a.end? = some (b.address : Int)) items := by
  induction h with
  | done => trivial
  | @instruction i items rest ih =>
    have hhead := rest.head_address
    rcases items with _ | ⟨item, items⟩
    · trivial
    · exact ⟨congrArg (fun n : Nat => some (n : Int)) (hhead item rfl).symm, ih⟩
  | @failure f next items skips ends lt rest ih =>
    have hhead := rest.head_address
    rcases items with _ | ⟨item, items⟩
    · trivial
    · exact ⟨ends.trans (congrArg (fun n : Nat => some (n : Int)) (hhead item rfl).symm), ih⟩
  | halt lt halts => trivial

/-- The last item ends at the last address, or it is a failure that is not stepped over. -/
theorem getLast_ends (h : Tiles policy stop start items) :
    ∀ item, items.getLast? = some item → item.end? = some (stop : Int) ∨
      (∃ f, item = .failure f) ∧ item.address < stop ∧
        (policy = .stop ∨ policy = .skip ∧ item.end? = none) := by
  induction h with
  | done => simp
  | @instruction i items rest ih =>
    rcases items with _ | ⟨next, items⟩
    · intro item hitem
      cases hitem
      rw [← rest.start_eq_of_nil]
      exact .inl rfl
    · rwa [List.getLast?_cons_cons]
  | @failure f next items skips ends lt rest ih =>
    rcases items with _ | ⟨item, items⟩
    · intro item hitem
      cases hitem
      rw [← rest.start_eq_of_nil]
      exact .inl ends
    · rwa [List.getLast?_cons_cons]
  | @halt f lt halts =>
    intro item hitem
    cases hitem
    exact .inr ⟨⟨f, rfl⟩, lt, halts⟩

/-- A sweep that does not step over faults records one at most, and nothing behind it. -/
theorem failure_eq_last (h : Tiles policy stop start items) (hpolicy : policy = .stop) :
    items.filterMap Item.failure? = [] ∨
      ∃ f, items.filterMap Item.failure? = [f] ∧ items.getLast? = some (.failure f) := by
  induction h with
  | done => exact .inl rfl
  | @instruction i items rest ih =>
    rcases ih with ih | ⟨f, ih, hlast⟩
    · exact .inl ih
    · refine .inr ⟨f, ih, ?_⟩
      rcases items with _ | ⟨next, items⟩
      · simp at hlast
      · rwa [List.getLast?_cons_cons]
  | failure skips ends lt rest ih =>
    rw [hpolicy] at skips
    cases skips
  | @halt f lt halts => exact .inr ⟨f, rfl, rfl⟩

/-- An item in front of others covers the addresses in front of theirs. -/
theorem covered_cons {item : Item} {next reached : Nat} (hend : item.end? = some (next : Int))
    (hbounds : ∀ other ∈ items, next ≤ other.address)
    (hcovered : ∀ address, next ≤ address → address < reached →
      ∃! other, other ∈ items ∧ other.Covers address) :
    ∀ address, item.address ≤ address → address < reached →
      ∃! other, other ∈ item :: items ∧ other.Covers address := by
  intro address hle hlt
  by_cases hfront : address < next
  · refine ⟨item, ⟨List.mem_cons_self, hle, next, hend, by omega⟩, ?_⟩
    rintro other ⟨hmem, hother, -⟩
    rcases List.mem_cons.1 hmem with rfl | hmem
    · rfl
    · have := hbounds other hmem
      omega
  · obtain ⟨other, ⟨hmem, hother⟩, hunique⟩ := hcovered address (by omega) hlt
    refine ⟨other, ⟨List.mem_cons_of_mem _ hmem, hother⟩, ?_⟩
    rintro third ⟨hmem, hthird⟩
    rcases List.mem_cons.1 hmem with rfl | hmem
    · obtain ⟨-, stop, hstop, hlt⟩ := hthird
      rw [hend] at hstop
      cases hstop
      omega
    · exact hunique third ⟨hmem, hthird⟩

/-- The addresses up to where the sweep has come are covered, all of them and none twice. -/
theorem covered (h : Tiles policy stop start items) :
    ∃ reached, start ≤ reached ∧ reached ≤ stop ∧
      (reached = stop ∨ ∃ f, items.getLast? = some (.failure f) ∧ f.address = reached ∧
        (policy = .stop ∨ policy = .skip ∧ (Item.failure f).end? = none)) ∧
      ∀ address, start ≤ address → address < reached →
        ∃! item, item ∈ items ∧ item.Covers address := by
  have hlast : ∀ {items : List Item} {item : Item} {f : Failure},
      items.getLast? = some (.failure f) → (item :: items).getLast? = some (.failure f) := by
    intro items item f hf
    rcases items with _ | ⟨next, items⟩
    · simp at hf
    · rwa [List.getLast?_cons_cons]
  induction h with
  | done => exact ⟨stop, Nat.le_refl _, Nat.le_refl _, .inl rfl, fun _ _ _ => by omega⟩
  | @instruction i items rest ih =>
    obtain ⟨reached, hstart, hstop, hreached, hcovered⟩ := ih
    refine ⟨reached, by unfold Instruction.endAddress at hstart; omega, hstop, ?_, ?_⟩
    · rcases hreached with hreached | ⟨f, hf, hreached⟩
      · exact .inl hreached
      · exact .inr ⟨f, hlast hf, hreached⟩
    · have hend : (Item.instruction i).end? = some (i.endAddress : Int) := rfl
      exact covered_cons hend (fun other hother => (rest.address_bounds other hother).1) hcovered
  | @failure f next items skips ends lt rest ih =>
    obtain ⟨reached, hstart, hstop, hreached, hcovered⟩ := ih
    refine ⟨reached, by omega, hstop, ?_, ?_⟩
    · rcases hreached with hreached | ⟨g, hg, hreached⟩
      · exact .inl hreached
      · exact .inr ⟨g, hlast hg, hreached⟩
    · exact covered_cons ends (fun other hother => (rest.address_bounds other hother).1) hcovered
  | @halt f lt halts =>
    exact ⟨f.address, Nat.le_refl _, lt.le, .inr ⟨f, rfl, rfl, halts⟩, fun _ _ _ => by omega⟩

end Tiles

/-! ### Merging -/

theorem merge_cons_left {α : Type} {le : α → α → Bool} {a : α} {front back : List α}
    (h : ∀ b ∈ back, le a b = true) :
    List.merge (a :: front) back le = a :: List.merge front back le := by
  cases back with
  | nil => simp only [List.merge_right]
  | cons b back => rw [List.cons_merge_cons_pos _ _ _ (h b List.mem_cons_self)]

theorem merge_cons_right {α : Type} {le : α → α → Bool} {b : α} {front back : List α}
    (h : ∀ a ∈ front, ¬ le a b = true) :
    List.merge front (b :: back) le = b :: List.merge front back le := by
  cases front with
  | nil => simp only [List.nil_merge]
  | cons a front => rw [List.cons_merge_cons_neg _ _ _ (h a List.mem_cons_self)]

/-- Merging the instructions and the failures of items in ascending order gives the items back. -/
theorem merge_of_pairwise_lt (h : items.Pairwise fun a b => a.address < b.address) :
    List.merge ((items.filterMap Item.instruction?).map Item.instruction)
      ((items.filterMap Item.failure?).map Item.failure)
      (fun a b => decide (a.address ≤ b.address)) = items := by
  have hinstructions : ∀ {items : List Item} {a : Item},
      a ∈ (items.filterMap Item.instruction?).map Item.instruction → a ∈ items := by
    intro items a ha
    obtain ⟨i, hi, rfl⟩ := List.mem_map.1 ha
    obtain ⟨item, hitem, hi⟩ := List.mem_filterMap.1 hi
    cases item <;> cases hi
    exact hitem
  have hfailures : ∀ {items : List Item} {b : Item},
      b ∈ (items.filterMap Item.failure?).map Item.failure → b ∈ items := by
    intro items b hb
    obtain ⟨f, hf, rfl⟩ := List.mem_map.1 hb
    obtain ⟨item, hitem, hf⟩ := List.mem_filterMap.1 hf
    cases item <;> cases hf
    exact hitem
  induction items with
  | nil => exact List.nil_merge _
  | cons item items ih =>
    obtain ⟨hlt, hrest⟩ := List.pairwise_cons.1 h
    cases item with
    | instruction i =>
      refine (merge_cons_left fun b hb => ?_).trans (congrArg _ (ih hrest))
      exact decide_eq_true (hlt b (hfailures hb)).le
    | failure f =>
      refine (merge_cons_right fun a ha => ?_).trans (congrArg _ (ih hrest))
      have := hlt a (hinstructions ha)
      rw [decide_eq_true_iff]
      exact this.not_ge

end Program

end MachineCode
