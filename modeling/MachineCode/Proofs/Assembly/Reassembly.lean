import MachineCode.Proofs.Assembly.Listing
import MachineCode.Proofs.Sweep.Bytes

/-!
# Reassembly

The line of an instruction does not tell which of the encodings of its move it was decoded from, so
that a listing does not tell the image. It does so up to two bits of the opcode bytes of moves
between registers and memory, which are not looked at when these are decoded, and up to the choice
between the two directions of a move between registers. Where the opcode bytes of these moves are
the same, so are the images.

## Main definitions

* `Move.withoutIgnored` : the bytes of a move without the bits that are not looked at.
* `Move.direction` : the bit of an opcode byte that tells the destination.

## Main results

* `Move.withoutIgnored_eq_of_outcome` : bytes that decode to the same move differ in ignored bits.
* `Program.image_eq_of_listing_eq` : images with the same listing differ in ignored bits.
-/

namespace MachineCode

namespace Move

/-- A move between registers and memory both of whose operands are registers. -/
def IsBetweenRegisters (move : Move) : Prop :=
  move.operation = .moveRegisterMemory ∧ ∃ r s, move.operands = ⟨.register r, .register s⟩

/-- The bytes of a move, with those bits of the opcode byte cleared that are not looked at. -/
def withoutIgnored (operation : Operation) : List UInt8 → List UInt8
  | opcode :: rest =>
    if operation = .moveRegisterMemory then (opcode &&& 0xF3) :: rest else opcode :: rest
  | [] => []

/-- The bit of the opcode byte that tells which of the two fields is the destination. -/
def direction (bytes : List UInt8) : Option UInt8 :=
  bytes.head?.map (· &&& 0x02)

theorem withoutIgnored_of_ne {operation : Operation} (h : operation ≠ .moveRegisterMemory)
    (bytes : List UInt8) : withoutIgnored operation bytes = bytes := by
  cases bytes with
  | nil => rfl
  | cons opcode rest => rw [withoutIgnored, if_neg h]

/-- Where the opcode bytes are the same, all bytes that are compared are. -/
theorem eq_of_withoutIgnored_eq {operation : Operation} {bytes others : List UInt8}
    (h : withoutIgnored operation bytes = withoutIgnored operation others)
    (hopcode : operation = .moveRegisterMemory → bytes.head? = others.head?) : bytes = others := by
  by_cases hoperation : operation = .moveRegisterMemory
  · have hhead := hopcode hoperation
    cases bytes with
    | nil => exact (List.head?_eq_none_iff.1 hhead.symm).symm
    | cons b rest =>
      rcases others with _ | ⟨c, others⟩
      · cases hhead
      · cases hhead
        simp only [withoutIgnored, if_pos hoperation, List.cons.injEq, true_and] at h
        rw [h]
  · rwa [withoutIgnored_of_ne hoperation, withoutIgnored_of_ne hoperation] at h

/-! ### Opcode bytes and mode bytes -/

theorem swapFields_swapFields (m : UInt8) : swapFields (swapFields m) = m := by
  revert m
  exact forall_byte (by decide +kernel)

theorem swapFields_mode (m : UInt8) : swapFields m &&& 0xC0 = m &&& 0xC0 := by
  revert m
  exact forall_byte (by decide +kernel)

theorem normalOpcode_and (b : UInt8) : normalOpcode b &&& 0xF3 = b &&& 0xF3 := by
  revert b
  exact forall_byte (by decide +kernel)

theorem normalOpcode_clear (b : UInt8) :
    ((normalOpcode b &&& 0xFD) &&& 0xF3) ||| (b &&& 0x02) = b &&& 0xF3 := by
  revert b
  exact forall_byte (by decide +kernel)

/-- The normal form of a move between registers and memory forgets the bits that are not looked at,
and the direction where both operands are registers. -/
theorem withoutIgnored_eq_of_normalBytes {b c m n : UInt8} {rest others : List UInt8}
    (h : normalBytes .moveRegisterMemory (b :: m :: rest) =
      normalBytes .moveRegisterMemory (c :: n :: others))
    (hdirection : m &&& 0xC0 = 0xC0 → b &&& 0x02 = c &&& 0x02) :
    (b &&& 0xF3) :: m :: rest = (c &&& 0xF3) :: n :: others := by
  simp only [normalBytes, if_true] at h
  by_cases hb : m &&& 0xC0 = 0xC0 ∧ b &&& 0x02 = 0x02 <;>
    by_cases hc : n &&& 0xC0 = 0xC0 ∧ c &&& 0x02 = 0x02
  · simp only [if_pos hb, if_pos hc, List.cons.injEq] at h
    obtain ⟨hopcode, hmode, rfl⟩ := h
    have hfields : m = n := by
      rw [← swapFields_swapFields m, hmode, swapFields_swapFields]
    rw [← normalOpcode_clear b, hopcode, hdirection hb.1, normalOpcode_clear, hfields]
  · -- the mode byte says that both operands are registers, so that the directions agree
    simp only [if_pos hb, if_neg hc, List.cons.injEq] at h
    refine absurd ⟨?_, (hdirection hb.1).symm.trans hb.2⟩ hc
    rw [← h.2.1, swapFields_mode, hb.1]
  · simp only [if_neg hb, if_pos hc, List.cons.injEq] at h
    have hm : m &&& 0xC0 = 0xC0 := by rw [h.2.1, swapFields_mode, hc.1]
    exact absurd ⟨hm, (hdirection hm).trans hc.2⟩ hb
  · simp only [if_neg hb, if_neg hc, List.cons.injEq] at h
    obtain ⟨hopcode, rfl, rfl⟩ := h
    rw [← normalOpcode_and b, hopcode, normalOpcode_and]

variable {settings : Settings.Decoder}

theorem isBetweenRegisters_of_location {b m : UInt8} {rest : List UInt8} {p : Operand × Nat}
    (h : ByteString.location settings (ByteString.width b) m rest = some p)
    (hm : m &&& 0xC0 = 0xC0) (size : Nat) :
    IsBetweenRegisters ⟨.moveRegisterMemory, ByteString.operands b m p.1, size⟩ := by
  rw [ByteString.location, if_pos ((mode_eq_three_iff m).1 hm)] at h
  cases h
  rw [IsBetweenRegisters, ByteString.operands]
  split <;> exact ⟨rfl, _, _, rfl⟩

/-- Bytes that decode to the same move are the same, but for the bits that are not looked at and for
the direction of a move between registers. -/
theorem withoutIgnored_eq_of_outcome {bytes others : List UInt8} {move : Move}
    (h : ByteString.outcome settings bytes = .ok move)
    (hothers : ByteString.outcome settings others = .ok move)
    (hdirection : move.IsBetweenRegisters →
      direction (bytes.take move.size) = direction (others.take move.size)) :
    withoutIgnored move.operation (bytes.take move.size) =
      withoutIgnored move.operation (others.take move.size) := by
  have hnormal : normalBytes move.operation (bytes.take move.size) =
      normalBytes move.operation (others.take move.size) :=
    (normalBytes_eq_encode h).trans (normalBytes_eq_encode hothers).symm
  rcases ByteString.outcome_eq_ok h with ⟨b, m, rest, p, rfl, -, hlocation, rfl⟩ |
    ⟨b, rest, p, rfl, -, -, rfl⟩
  · rcases ByteString.outcome_eq_ok hothers with ⟨c, n, others, q, rfl, -, -, -⟩ |
      ⟨c, others, q, -, -, -, heq⟩
    · simp only [Nat.add_comm 2, List.take_succ_cons] at hnormal hdirection ⊢
      refine withoutIgnored_eq_of_normalBytes hnormal fun hm => ?_
      exact Option.some.inj (hdirection (isBetweenRegisters_of_location hlocation hm _))
    · cases heq
  · have hne : Operation.moveImmediateRegister ≠ .moveRegisterMemory := Operation.noConfusion
    rw [normalBytes_of_ne hne, normalBytes_of_ne hne] at hnormal
    rw [hnormal]

end Move

namespace Program

open Move

variable {settings : Settings.Program} {image other : Image} {decoding result : Decoding}

/-- Two runs without failures that make the same moves record the same instructions. -/
theorem Sweeps.instructions_eq {offset : Nat} {events others : List Event}
    (h : Sweeps settings image offset events) (hothers : Sweeps settings other offset others)
    (hcomplete : events.filterMap Event.failure? = [])
    (hcompletes : others.filterMap Event.failure? = [])
    (hmoves : (events.filterMap Event.instruction?).map Instruction.move =
      (others.filterMap Event.instruction?).map Instruction.move) :
    events.filterMap Event.instruction? = others.filterMap Event.instruction? := by
  induction h generalizing others with
  | done => exact (List.map_eq_nil_iff.1 hmoves.symm).symm
  | @decoded offset i events outcome address rest ih =>
    cases hothers with
    | done => cases hmoves
    | @decoded _ j others outcome' address' rest' =>
      simp only [List.filterMap_cons, Event.instruction?, List.map_cons, List.cons.injEq]
        at hmoves ⊢
      obtain ⟨hmove, hmoves⟩ := hmoves
      have heq : i = j := Instruction.eq_of_move (address.trans address'.symm) hmove
      subst heq
      exact ⟨rfl, ih rest' hcomplete hcompletes hmoves⟩
    | skipped => cases hcompletes
    | halted => cases hcompletes
  | skipped outcome policy skip pos rest ih => cases hcomplete
  | halted lt outcome halt => cases hcomplete

/-- Images with the same listing have the same instructions. -/
theorem instructions_eq_of_listing_eq (hdirect : settings.decoder.directAddress = true)
    (hdecode : decode settings image = .ok decoding) (hresult : decode settings other = .ok result)
    (hcomplete : decoding.program.failures = []) (hother : result.program.failures = [])
    (hlisting : Report.listing decoding.program = Report.listing result.program) :
    decoding.program.instructions = result.program.instructions := by
  have hmoves : decoding.program.instructions.map Instruction.move =
      result.program.instructions.map Instruction.move :=
    (map_text_eq_iff hdirect (wellFormed_of_decode hdecode) (wellFormed_of_decode hresult)).1
      (List.append_cancel_left hlisting)
  obtain ⟨events, hsweeps, hrecords, -⟩ := sweeps_of_decode hdecode
  obtain ⟨others, hothers, hresults, -⟩ := sweeps_of_decode hresult
  rw [hrecords.failures] at hcomplete
  rw [hresults.failures] at hother
  rw [hrecords.instructions, hresults.instructions] at hmoves ⊢
  exact hsweeps.instructions_eq hothers hcomplete hother hmoves

/-- The bytes of an instruction of two programs are the same, but for the bits that are not looked
at and for the direction of a move between registers. -/
theorem withoutIgnored_bytesOf_eq (hdecode : decode settings image = .ok decoding)
    (hresult : decode settings other = .ok result) {i : Instruction}
    (hi : i ∈ decoding.program.instructions) (hother : i ∈ result.program.instructions)
    (hdirection : i.move.IsBetweenRegisters →
      direction (decoding.program.bytesOf i).toList = direction (result.program.bytesOf i).toList) :
    withoutIgnored i.operation (decoding.program.bytesOf i).toList =
      withoutIgnored i.operation (result.program.bytesOf i).toList := by
  obtain ⟨bytes, hbytes, houtcome⟩ := outcome_bytesOf hdecode hi
  obtain ⟨others, hothers, houtcomes⟩ := outcome_bytesOf hresult hother
  rw [hbytes, hothers] at hdirection ⊢
  exact withoutIgnored_eq_of_outcome houtcome houtcomes hdirection

theorem normalBytes_bytesOf_eq (hdecode : decode settings image = .ok decoding)
    (hresult : decode settings other = .ok result) {i : Instruction}
    (hi : i ∈ decoding.program.instructions) (hother : i ∈ result.program.instructions) :
    normalBytes i.operation (decoding.program.bytesOf i).toList =
      normalBytes i.operation (result.program.bytesOf i).toList := by
  obtain ⟨bytes, hbytes, houtcome⟩ := outcome_bytesOf hdecode hi
  obtain ⟨others, hothers, houtcomes⟩ := outcome_bytesOf hresult hother
  rw [hbytes, hothers]
  exact (normalBytes_eq_encode houtcome).trans (normalBytes_eq_encode houtcomes).symm

/-- Under the default settings, two images that are decoded without failures and have the same
listing have the same size and the same instructions, and the bytes of each instruction have the
same normal form. They are the same but for the two ignored bits of the opcode byte of a move
between registers and memory, where both operands are registers provided that the directions are the
same. So the images are the same exactly where all such opcode bytes are. -/
theorem image_eq_of_listing_eq (hdecode : decode .defaults image = .ok decoding)
    (hresult : decode .defaults other = .ok result) (hcomplete : decoding.program.failures = [])
    (hother : result.program.failures = [])
    (hlisting : Report.listing decoding.program = Report.listing result.program) :
    image.size = other.size ∧
      decoding.program.instructions = result.program.instructions ∧
      (∀ i ∈ decoding.program.instructions,
        normalBytes i.operation (decoding.program.bytesOf i).toList =
          normalBytes i.operation (result.program.bytesOf i).toList) ∧
      (∀ i ∈ decoding.program.instructions,
        (i.move.IsBetweenRegisters → direction (decoding.program.bytesOf i).toList =
          direction (result.program.bytesOf i).toList) →
        withoutIgnored i.operation (decoding.program.bytesOf i).toList =
          withoutIgnored i.operation (result.program.bytesOf i).toList) ∧
      (image = other ↔ ∀ i ∈ decoding.program.instructions, i.operation = .moveRegisterMemory →
        (decoding.program.bytesOf i).toList.head? = (result.program.bytesOf i).toList.head?) := by
  have hinstructions := instructions_eq_of_listing_eq rfl hdecode hresult hcomplete hother hlisting
  have hmem : ∀ i ∈ decoding.program.instructions, i ∈ result.program.instructions :=
    fun i hi => hinstructions ▸ hi
  refine ⟨?_, hinstructions, fun i hi => normalBytes_bytesOf_eq hdecode hresult hi (hmem i hi),
    fun i hi => withoutIgnored_bytesOf_eq hdecode hresult hi (hmem i hi), fun heq => ?_,
    fun hopcodes => ?_⟩
  · have hsize : decoding.program.size = result.program.size := by
      rw [Program.size, Program.size, hinstructions]
    rw [← start_add_size hdecode hcomplete (Nat.zero_le _), hsize]
    exact start_add_size hresult hother (Nat.zero_le _)
  · subst heq
    cases hdecode.symm.trans hresult
    exact fun _ _ _ => rfl
  · have hall : decoding.program.instructions.flatMap
          (fun i => (decoding.program.bytesOf i).toList) =
        result.program.instructions.flatMap (fun i => (result.program.bytesOf i).toList) := by
      rw [← hinstructions]
      refine List.flatMap_congr fun i hi => ?_
      have hdirection : i.move.IsBetweenRegisters → direction (decoding.program.bytesOf i).toList =
          direction (result.program.bytesOf i).toList :=
        fun hregisters => congrArg (Option.map (· &&& 0x02)) (hopcodes i hi hregisters.1)
      exact eq_of_withoutIgnored_eq
        (withoutIgnored_bytesOf_eq hdecode hresult hi (hmem i hi) hdirection) (hopcodes i hi)
    rw [flatMap_bytesOf hdecode hcomplete, flatMap_bytesOf hresult hother] at hall
    exact Array.toList_inj.1 hall

/-- Two images that are the same instruction have the same listing. -/
theorem exists_listing_eq (image other : Image) (i : Instruction) (haddress : i.address = 0)
    (hsize : i.size = image.size) (hsizes : i.size = other.size)
    (houtcome : ByteString.outcome {} image.toList = .ok i.move)
    (houtcomes : ByteString.outcome {} other.toList = .ok i.move) :
    ∃ decoding result, decode .defaults image = .ok decoding ∧
      decode .defaults other = .ok result ∧ decoding.program.failures = [] ∧
      result.program.failures = [] ∧ i ∈ decoding.program.instructions ∧
      (decoding.program.bytesOf i).toList = image.toList ∧
      (result.program.bytesOf i).toList = other.toList ∧
      Report.listing decoding.program = Report.listing result.program := by
  obtain ⟨decoding, hdecode, hinstructions, hcomplete, hbytes⟩ :=
    decode_of_outcome haddress hsize houtcome
  obtain ⟨result, hresult, hinstruction, hother, hbytes'⟩ :=
    decode_of_outcome haddress hsizes houtcomes
  refine ⟨decoding, result, hdecode, hresult, hcomplete, hother, ?_, hbytes, hbytes', ?_⟩
  · rw [hinstructions]
    exact List.mem_cons_self
  · rw [Report.listing, Report.listing, hinstructions, hinstruction]

/-- Two moves from `cl` to `al` whose opcode bytes differ in an ignored bit, and two moves from `cx`
to `ax` whose directions differ. -/
theorem image_eq_of_listing_eq_ignored :
    (∃ decoding result i, decode .defaults #[0x88, 0xC8] = .ok decoding ∧
      decode .defaults #[0x80, 0xC8] = .ok result ∧
      Report.listing decoding.program = Report.listing result.program ∧
      i ∈ decoding.program.instructions ∧
      withoutIgnored i.operation (decoding.program.bytesOf i).toList =
        withoutIgnored i.operation (result.program.bytesOf i).toList) ∧
      ∃ decoding result i, decode .defaults #[0x8B, 0xC1] = .ok decoding ∧
        decode .defaults #[0x89, 0xC8] = .ok result ∧
        Report.listing decoding.program = Report.listing result.program ∧
        i ∈ decoding.program.instructions ∧
        normalBytes i.operation (decoding.program.bytesOf i).toList =
          normalBytes i.operation (result.program.bytesOf i).toList ∧
        (decoding.program.bytesOf i).toList ≠ (result.program.bytesOf i).toList := by
  constructor
  · let i : Instruction := ⟨0, 2, .moveRegisterMemory, .register ⟨.byte, 0⟩,
      .register ⟨.byte, 1⟩, by decide, by decide, rfl⟩
    obtain ⟨decoding, result, hdecode, hresult, hcomplete, hother, hi, hbytes, hbytes', hlisting⟩ :=
      exists_listing_eq #[0x88, 0xC8] #[0x80, 0xC8] i rfl rfl rfl rfl rfl
    obtain ⟨-, -, -, hagree, -⟩ :=
      image_eq_of_listing_eq hdecode hresult hcomplete hother hlisting
    refine ⟨decoding, result, i, hdecode, hresult, hlisting, hi, hagree i hi fun _ => ?_⟩
    rw [hbytes, hbytes']
    decide
  · let i : Instruction := ⟨0, 2, .moveRegisterMemory, .register ⟨.word, 0⟩,
      .register ⟨.word, 1⟩, by decide, by decide, rfl⟩
    obtain ⟨decoding, result, hdecode, hresult, hcomplete, hother, hi, hbytes, hbytes', hlisting⟩ :=
      exists_listing_eq #[0x8B, 0xC1] #[0x89, 0xC8] i rfl rfl rfl rfl rfl
    obtain ⟨-, -, hnormal, -⟩ := image_eq_of_listing_eq hdecode hresult hcomplete hother hlisting
    refine ⟨decoding, result, i, hdecode, hresult, hlisting, hi, hnormal i hi, ?_⟩
    rw [hbytes, hbytes']
    decide

/-- So the listing does not determine the image. -/
theorem listing_not_injective :
    ¬ ∀ (image other : Image) (decoding result : Decoding),
      decode .defaults image = .ok decoding → decode .defaults other = .ok result →
      decoding.program.failures = [] → result.program.failures = [] →
      Report.listing decoding.program = Report.listing result.program → image = other := by
  intro hinjective
  let i : Instruction := ⟨0, 2, .moveRegisterMemory, .register ⟨.word, 0⟩, .register ⟨.word, 1⟩,
    by decide, by decide, rfl⟩
  obtain ⟨decoding, result, hdecode, hresult, hcomplete, hother, -, -, -, hlisting⟩ :=
    exists_listing_eq #[0x8B, 0xC1] #[0x89, 0xC8] i rfl rfl rfl rfl rfl
  have heq := hinjective _ _ decoding result hdecode hresult hcomplete hother hlisting
  exact absurd heq (by decide)

end Program

end MachineCode
