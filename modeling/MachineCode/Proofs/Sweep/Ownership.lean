import MachineCode.Proofs.BitString.Locality
import MachineCode.Proofs.Sweep.Bytes

/-!
# The owners of bytes

An instruction of a program has an address, bytes that the program keeps, and a place in the binary.
These belong together: the bytes lie as far behind the start of the sweep as the address lies behind
the origin, and the instruction can be decoded from them alone. No two instructions have the same
address, so that the address finds the instruction again.

## Main definitions

* `Program.Owns` : an instruction of a program and the bytes that belong to it.

## Main results

* `ByteString.outcome_take` : a move is decoded from its own bytes.
* `Program.at?_eq_some_iff` : the instruction that starts at an address.
* `Program.decode_owns` : the instructions of a decoded program own their bytes.
-/

namespace MachineCode

/-- What holds of neighbours holds of any two items in their order, if it is transitive. -/
theorem Adjacent.pairwise {α : Type} {r : α → α → Prop} {items : List α} (h : Adjacent r items)
    (htrans : ∀ {a b c}, r a b → r b c → r a c) : items.Pairwise r := by
  induction items with
  | nil => exact .nil
  | cons a items ih =>
    cases items with
    | nil => exact List.pairwise_singleton _ _
    | cons b items =>
      have hrest := ih h.2
      refine .cons (fun c hc => ?_) hrest
      rcases List.mem_cons.1 hc with rfl | hc
      · exact h.1
      · exact htrans h.1 ((List.pairwise_cons.1 hrest).1 c hc)

theorem Adjacent.iff_pairwise {α : Type} {r : α → α → Prop} {items : List α}
    (htrans : ∀ {a b c}, r a b → r b c → r a c) : Adjacent r items ↔ items.Pairwise r :=
  ⟨fun h => h.pairwise htrans, .of_pairwise⟩

theorem Instruction.address_lt_endAddress (i : Instruction) : i.address < i.endAddress :=
  Nat.lt_add_of_pos_right i.one_le_size

theorem Instruction.adjacent_iff_pairwise {instructions : List Instruction} :
    Adjacent (fun i j => i.endAddress ≤ j.address) instructions ↔
      instructions.Pairwise fun i j => i.endAddress ≤ j.address :=
  Adjacent.iff_pairwise fun {_ b _} hab hbc => hab.trans (b.address_lt_endAddress.le.trans hbc)

/-- A move is decoded from its own bytes. -/
theorem ByteString.outcome_take {settings : Settings.Decoder} {bytes : List UInt8} {move : Move}
    (h : outcome settings bytes = .ok move) :
    outcome settings (bytes.take move.size) = .ok move := by
  have hle : move.size ≤ bytes.length := (size_of_outcome h).2.2
  have hprefix : (bytes.take move.size).flatMap Image.byteBits <+: bytes.flatMap Image.byteBits :=
    (List.take_prefix _ _).flatMap _
  rw [← Scan.outcome_flatMap_byteBits] at h ⊢
  refine Scan.outcome_of_take h
    (List.prefix_of_prefix_length_le (List.take_prefix _ _) hprefix ?_)
  rw [Image.length_flatMap_byteBits, List.length_take_of_le hle]
  exact List.length_take_le _ _

namespace Program

variable {settings : Settings.Program} {image : Image}

/-! ### Addresses of instructions -/

theorem pairwise_instructions (program : Program) :
    program.instructions.Pairwise fun i j => i.endAddress ≤ j.address :=
  Instruction.adjacent_iff_pairwise.1 program.instructions_adjacent

/-- Addresses find exactly the instructions that start there. -/
theorem at?_eq_some_iff {program : Program} {address : Int} {i : Instruction} :
    program.at? address = some i ↔ i ∈ program.instructions ∧ (i.address : Int) = address := by
  constructor
  · intro h
    exact ⟨List.mem_of_find?_eq_some h, by simpa using List.find?_some h⟩
  · rintro ⟨hi, rfl⟩
    obtain ⟨front, back, heq⟩ := List.append_of_mem hi
    have hfront : ∀ j ∈ front, j.endAddress ≤ i.address := by
      have hpairwise := program.pairwise_instructions
      rw [heq, List.pairwise_append] at hpairwise
      exact fun j hj => hpairwise.2.2 j hj i List.mem_cons_self
    refine List.find?_eq_some_iff_append.2 ⟨beq_self_eq_true _, front, back, heq, fun j hj => ?_⟩
    have hlt := j.address_lt_endAddress.trans_le (hfront j hj)
    simpa using hlt.ne

theorem mem_addresses_iff {program : Program} {address : Nat} :
    address ∈ program.addresses ↔ ∃ i, program.at? address = some i := by
  simp only [addresses, List.mem_map, at?_eq_some_iff, Nat.cast_inj]

/-! ### Instructions and their bytes -/

/-- An instruction of a program owns the bytes that lie as far behind the start of the sweep as its
address lies behind the origin. -/
structure Owns (settings : Settings.Program) (image : Image) (program : Program)
    (i : Instruction) : Prop where
  origin_le : settings.origin ≤ i.address
  /-- There are as many bytes as the instruction is long. -/
  size : (program.bytesOf i).size = i.size
  /-- They are bytes of the binary. -/
  bytes : program.bytesOf i =
    image.extract (settings.start + (i.address - settings.origin))
      (settings.start + (i.address - settings.origin) + i.size)
  /-- Alone, they decode to the instruction and to nothing else. -/
  decodes : ∃ next, Decoder.instructionAt settings.decoder i.address
    (BitReader.start (program.bytesOf i)) = .ok (i, next) ∧ next.atEnd = true
  /-- The address of the instruction finds it. -/
  found : program.at? i.address = some i

/-- The instructions of a run own their bytes. -/
theorem Records.owns {events : List Event} {program : Program}
    (hrecords : Records settings image events program)
    (hsweeps : Sweeps settings image settings.start events) {i : Instruction}
    (hi : i ∈ program.instructions) : Owns settings image program i := by
  have hmem := hi
  rw [hrecords.instructions] at hmem
  obtain ⟨place, hstart, haddress, hend, houtcome⟩ := hsweeps.exists_offset i hmem
  have hplace : settings.start + (i.address - settings.origin) = place := by
    rw [haddress, Settings.Program.addressAt]
    omega
  have hbytes := hrecords.toList_bytesOf hstart haddress hend
  have hsize : (program.bytesOf i).size = i.size := by
    rw [← Array.length_toList, hbytes, List.length_take_of_le]
    rw [List.length_drop, Array.length_toList]
    omega
  have halone : ByteString.outcome settings.decoder (program.bytesOf i).toList = .ok i.move := by
    rw [hbytes]
    exact ByteString.outcome_take houtcome
  obtain ⟨next, hdecode, hnext⟩ := Decoder.instructionAt_start_of_move halone
  refine ⟨?_, hsize, ?_, ⟨next, hdecode, (atEnd_iff hnext).2 hsize.le⟩,
    at?_eq_some_iff.2 ⟨hi, rfl⟩⟩
  · rw [haddress]
    exact Nat.le_add_right _ _
  · rw [hplace, ← Array.toList_inj, hbytes, Array.toList_extract, List.extract_eq_take_drop,
      Nat.add_sub_cancel_left]

/-- Where a binary is decoded, every instruction owns its bytes, and the addresses that find an
instruction are those of the instructions, one for each. A binary that does not end before its start
is decoded, unless a fault is raised. -/
theorem decode_owns (settings : Settings.Program) (image : Image)
    (hstart : settings.start ≤ image.size) :
    (settings.faultPolicy ≠ .raise → ∃ decoding, decode settings image = .ok decoding) ∧
      ∀ decoding, decode settings image = .ok decoding →
        (∀ i ∈ decoding.program.instructions, Owns settings image decoding.program i) ∧
        (∀ address i, decoding.program.at? address = some i ↔
          i ∈ decoding.program.instructions ∧ (i.address : Int) = address) ∧
        ∀ address : Nat, address ∈ decoding.program.addresses ↔
          ∃ i, decoding.program.at? address = some i := by
  refine ⟨fun hpolicy => ?_, fun decoding hdecode =>
    ⟨fun i hi => ?_, fun _ _ => at?_eq_some_iff, fun _ => mem_addresses_iff⟩⟩
  · obtain ⟨events, hsweeps⟩ := exists_sweeps hpolicy (Nat.le_refl _) hstart
    obtain ⟨program, -, hdecode⟩ := decode_of_sweeps hstart hsweeps
    exact ⟨_, hdecode⟩
  · obtain ⟨events, hsweeps, hrecords, -⟩ := sweeps_of_decode hdecode
    exact hrecords.owns hsweeps hi

/-- Behind a byte that is not decoded come a load, a byte of no known family and a literal, which is
loaded at the third address behind the origin. -/
theorem decode_owns_skip :
    1 ≤ (#[0x00, 0x8B, 0x07, 0x00, 0xB0, 0x05] : Image).size ∧
      ∃ decoding i, decode { origin := 0x100, start := 1, faultPolicy := .skip }
          #[0x00, 0x8B, 0x07, 0x00, 0xB0, 0x05] = .ok decoding ∧
        i ∈ decoding.program.instructions ∧ i.address = 0x103 ∧
        Owns { origin := 0x100, start := 1, faultPolicy := .skip }
          #[0x00, 0x8B, 0x07, 0x00, 0xB0, 0x05] decoding.program i := by
  let settings : Settings.Program := { origin := 0x100, start := 1, faultPolicy := .skip }
  let image : Image := #[0x00, 0x8B, 0x07, 0x00, 0xB0, 0x05]
  let load : Instruction := ⟨0x100, 2, .moveRegisterMemory, .register ⟨.word, 0⟩,
    .memory (.bare .bx), by decide, by decide, rfl⟩
  let literal : Instruction := ⟨0x103, 2, .moveImmediateRegister, .register ⟨.byte, 0⟩,
    .immediate (.byte 5), by decide, by decide, rfl⟩
  have hsweeps : Sweeps settings image 1
      [.decoded load, .failed (failureOf settings image 3 (.unknownOpcode 0 4)),
        .decoded literal] := by
    have hskip : (Fault.ofCause 6 3 (.unknownOpcode 0 4)).skip? = some ((1 : Nat) : Int) := rfl
    exact .decoded rfl rfl (.skipped rfl rfl hskip (by decide) (.decoded rfl rfl .done))
  obtain ⟨program, hrecords, hdecode⟩ := decode_of_sweeps (by decide) hsweeps
  have hliteral : literal ∈ program.instructions := by
    rw [hrecords.instructions]
    exact List.mem_cons_of_mem _ List.mem_cons_self
  have howns := ((decode_owns settings image (by decide)).2 _ hdecode).1 literal hliteral
  exact ⟨by decide, _, literal, hdecode, hliteral, rfl, howns⟩

end Program

end MachineCode
