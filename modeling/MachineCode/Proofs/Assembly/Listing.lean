import MachineCode.Proofs.Assembly.Line
import MachineCode.Proofs.Move.NormalForm
import MachineCode.Proofs.Sweep.Decode
import MachineCode.Report.Disassembly

/-!
# Listings and images

A listing that is assembled again need not give the same bytes, because a move can have several
encodings of one size. It keeps everything else: where all bytes of an image are decoded, and direct
addresses are among the operands, the listing determines the image up to the choice of encodings,
and nothing but this choice is lost.

## Main definitions

* `Program.normalForm` : the bytes of a program with all choices of encodings fixed.

## Main results

* `Program.normalForm_eq_flatMap_encode` : the normal form consists of the encodings of the moves.
* `Program.listing_eq_iff` : two listings are equal exactly when the normal forms are.
-/

namespace MachineCode

namespace Program

open Move

/-- Some bytes with those of one instruction in normal form. The first byte has the address
`origin`. -/
def normalizeAt (origin : Nat) (bytes : List UInt8) (i : Instruction) : List UInt8 :=
  bytes.take (i.address - origin) ++
    (normalBytes i.operation ((bytes.drop (i.address - origin)).take i.size) ++
      bytes.drop (i.endAddress - origin))

/-- The bytes of a program with those of each instruction in normal form. -/
def normalForm (program : Program) : List UInt8 :=
  program.instructions.foldl (normalizeAt program.origin) program.data.toList

variable {settings : Settings.Program} {image : Image}

theorem normalizeAt_append {origin : Nat} {front bytes : List UInt8} {i : Instruction}
    (h : i.address = origin + front.length)
    (houtcome : ByteString.outcome settings.decoder bytes = .ok i.move) :
    normalizeAt origin (front ++ bytes) i = front ++ (i.move.encode ++ bytes.drop i.size) := by
  have hfirst : i.address - origin = front.length := by omega
  have hlast : i.endAddress - origin = front.length + i.size := by
    rw [Instruction.endAddress]
    omega
  have hnormal : normalBytes i.operation (bytes.take i.size) = i.move.encode :=
    normalBytes_eq_encode houtcome
  rw [normalizeAt, hfirst, hlast, ← List.drop_drop, List.take_left, List.drop_left, hnormal]

theorem Sweeps.foldl_normalizeAt {offset : Nat} {events : List Event}
    (h : Sweeps settings image offset events) (hstart : settings.start ≤ offset)
    (hcomplete : events.filterMap Event.failure? = []) (front : List UInt8)
    (hfront : front.length = offset - settings.start) :
    (events.filterMap Event.instruction?).foldl (normalizeAt settings.origin)
        (front ++ image.toList.drop offset) =
      front ++ ((events.filterMap Event.instruction?).map Instruction.move).flatMap encode := by
  induction h generalizing front with
  | done => rw [List.drop_of_length_le (by simp)]; rfl
  | @decoded offset i events outcome address rest ih =>
    have haddress : i.address = settings.origin + front.length := by
      rw [address, hfront]
      rfl
    have hlength : (front ++ i.move.encode).length = offset + i.size - settings.start := by
      rw [List.length_append, hfront, length_encode (wellFormed_of_outcome outcome)]
      change _ + i.size = _
      omega
    simp only [List.filterMap_cons, Event.instruction?, List.foldl_cons, List.map_cons,
      List.flatMap_cons]
    rw [normalizeAt_append haddress outcome, List.drop_drop, ← List.append_assoc,
      ih (by omega) hcomplete _ hlength, List.append_assoc]
  | skipped outcome policy skip pos rest ih => cases hcomplete
  | halted lt outcome halt => cases hcomplete

theorem Sweeps.wellFormed {offset : Nat} {events : List Event}
    (h : Sweeps settings image offset events) :
    ∀ i ∈ events.filterMap Event.instruction?, i.move.WellFormed settings.decoder := by
  induction h with
  | done => simp
  | @decoded offset i events outcome address rest ih =>
    intro j hj
    rcases List.mem_cons.1 hj with rfl | hj
    · exact wellFormed_of_outcome outcome
    · exact ih j hj
  | skipped outcome policy skip pos rest ih => exact ih
  | halted lt outcome halt => simp [Event.instruction?]

/-- The normal form of a program without failures consists of the encodings of its moves. -/
theorem normalForm_eq_flatMap_encode {decoding : Decoding}
    (h : decode settings image = .ok decoding) (hcomplete : decoding.program.failures = []) :
    decoding.program.normalForm =
      (decoding.program.instructions.map Instruction.move).flatMap encode := by
  obtain ⟨events, hsweeps, hrecords, -⟩ := sweeps_of_decode h
  rw [hrecords.failures] at hcomplete
  have hfold := hsweeps.foldl_normalizeAt (Nat.le_refl _) hcomplete [] (Nat.sub_self _).symm
  have hdata : decoding.program.data.toList = image.toList.drop settings.start := by
    rw [hrecords.data]
    simp
  rw [normalForm, hrecords.origin, hrecords.instructions, hdata]
  exact hfold

theorem wellFormed_of_decode {decoding : Decoding} (h : decode settings image = .ok decoding) :
    ∀ i ∈ decoding.program.instructions, i.move.WellFormed settings.decoder := by
  obtain ⟨events, hsweeps, hrecords, -⟩ := sweeps_of_decode h
  rw [hrecords.instructions]
  exact hsweeps.wellFormed

/-! ### Listings -/

theorem text_eq_of_move {i j : Instruction} (h : i.move = j.move) : i.text = j.text := by
  have hdestination : i.destination = j.destination :=
    congrArg (fun move => move.operands.destination) h
  have hsource : i.source = j.source := congrArg (fun move => move.operands.source) h
  rw [Instruction.text, Instruction.text, Assembly.mnemonic_eq, Assembly.mnemonic_eq, hdestination,
    hsource]

theorem move_eq_of_text {settings : Settings.Decoder} (hdirect : settings.directAddress = true)
    {i j : Instruction} (hi : i.move.WellFormed settings) (hj : j.move.WellFormed settings)
    (h : i.text = j.text) : i.move = j.move := by
  have hread := Assembly.readLine_text hdirect hi
  rw [h, Assembly.readLine_text hdirect hj] at hread
  exact (Option.some.inj hread).symm

theorem map_text_eq_iff {settings : Settings.Decoder} (hdirect : settings.directAddress = true)
    {instructions others : List Instruction}
    (h : ∀ i ∈ instructions, i.move.WellFormed settings)
    (hothers : ∀ j ∈ others, j.move.WellFormed settings) :
    instructions.map Instruction.text = others.map Instruction.text ↔
      instructions.map Instruction.move = others.map Instruction.move := by
  induction instructions generalizing others with
  | nil => cases others <;> simp
  | cons i instructions ih =>
    rcases others with _ | ⟨j, others⟩
    · simp
    · have hhead : i.text = j.text ↔ i.move = j.move :=
        ⟨move_eq_of_text hdirect (h i List.mem_cons_self) (hothers j List.mem_cons_self),
          text_eq_of_move⟩
      have htail := ih (fun k hk => h k (List.mem_cons_of_mem _ hk))
        (fun k hk => hothers k (List.mem_cons_of_mem _ hk))
      simp only [List.map_cons, List.cons.injEq, hhead, htail]

/-- Of binaries that are decoded without failures and with direct addresses, the listing keeps the
normal form and nothing else: two listings are equal exactly when the normal forms are. In
particular the line of an instruction tells its family, its size and its operands. -/
theorem listing_eq_iff {s t : Settings.Program} {image other : Image} {decoding result : Decoding}
    (hs : s.decoder.directAddress = true) (ht : t.decoder.directAddress = true)
    (hdecode : decode s image = .ok decoding) (hresult : decode t other = .ok result)
    (hcomplete : decoding.program.failures = []) (hother : result.program.failures = []) :
    (Report.listing decoding.program = Report.listing result.program ↔
        decoding.program.normalForm = result.program.normalForm) ∧
      ∀ i ∈ decoding.program.instructions, ∀ j ∈ result.program.instructions, i.text = j.text →
        i.operation = j.operation ∧ i.size = j.size ∧ i.destination = j.destination ∧
          i.source = j.source := by
  have hsettings : t.decoder = s.decoder := by
    rw [show s.decoder = ⟨true⟩ from congrArg Settings.Decoder.mk hs]
    exact congrArg Settings.Decoder.mk ht
  have hmoves := wellFormed_of_decode hdecode
  have hothers := wellFormed_of_decode hresult
  rw [hsettings] at hothers
  have hmap : ∀ {instructions : List Instruction},
      (∀ i ∈ instructions, i.move.WellFormed s.decoder) →
        ∀ move ∈ instructions.map Instruction.move, move.WellFormed s.decoder := by
    intro instructions hall move hmove
    obtain ⟨i, hi, rfl⟩ := List.mem_map.1 hmove
    exact hall i hi
  refine ⟨?_, fun i hi j hj htext => ?_⟩
  · rw [normalForm_eq_flatMap_encode hdecode hcomplete, normalForm_eq_flatMap_encode hresult hother,
      Report.listing, Report.listing, List.append_right_inj, map_text_eq_iff hs hmoves hothers]
    exact ⟨congrArg (List.flatMap encode),
      flatMap_encode_injective (hmap hmoves) (hmap hothers)⟩
  · have hmove := move_eq_of_text hs (hmoves i hi) (hothers j hj) htext
    exact ⟨congrArg Move.operation hmove, congrArg Move.size hmove,
      congrArg (fun move => move.operands.destination) hmove,
      congrArg (fun move => move.operands.source) hmove⟩

/-- The two encodings of a move from `cx` to `ax` have the same line. -/
theorem listing_eq_iff_registers :
    ∃ decoding result, decode {} #[0x8B, 0xC1] = .ok decoding ∧
      decode {} #[0x89, 0xC8] = .ok result ∧ decoding.program.failures = [] ∧
      result.program.failures = [] ∧
      Report.listing decoding.program = Report.listing result.program ∧
      decoding.program.normalForm = result.program.normalForm := by
  let i : Instruction := ⟨0, 2, .moveRegisterMemory, .register ⟨.word, 0⟩, .register ⟨.word, 1⟩,
    by decide, by decide, rfl⟩
  have hfirst : Sweeps {} #[0x8B, 0xC1] 0 [.decoded i] := .decoded rfl rfl .done
  have hsecond : Sweeps {} #[0x89, 0xC8] 0 [.decoded i] := .decoded rfl rfl .done
  obtain ⟨program, hrecords, hdecode⟩ := decode_of_sweeps (Nat.zero_le _) hfirst
  obtain ⟨other, hothers, hresult⟩ := decode_of_sweeps (Nat.zero_le _) hsecond
  have hiff := (listing_eq_iff rfl rfl hdecode hresult hrecords.failures hothers.failures).1
  have hlisting : Report.listing program = Report.listing other := by
    rw [Report.listing, Report.listing, hrecords.instructions, hothers.instructions]
  exact ⟨_, _, hdecode, hresult, hrecords.failures, hothers.failures, hlisting, hiff.1 hlisting⟩

end Program

end MachineCode
