import MachineCode.Proofs.Assembly.Line
import MachineCode.Proofs.Move.Range

/-!
# Lines and sizes

Where direct addresses are decoded, a line keeps the size of its instruction. Otherwise there is a
bare `bp` among the operands, which is written like `bp` with a displacement byte of zero. An
assembler takes both for the latter. This file follows a decoded instruction through its line and
back: what comes back is the instruction itself, but for a bare `bp`, which has become one byte
longer. So this is all that a line does not tell.

## Main definitions

* `Move.HasBareBp` : the moves from and to a bare `bp`.
* `Move.reassembled` : what a move becomes through its line.

## Main results

* `Assembly.readLine_reassembled` : what is read from the line of a decoded instruction.
* `Decoder.text_eq_iff_reassembled` : when two decoded instructions have the same line, and when
  they are of the same size then.
* `Decoder.exists_text_eq_size_ne` : lines do not tell sizes without direct addresses.
-/

namespace MachineCode

open Assembly

namespace EffectiveAddress

/-- What an address becomes through its text: a bare `bp` gets a displacement byte of zero. -/
def reassembled : EffectiveAddress → EffectiveAddress
  | .bare .bp => .offset .bp (.byte 0)
  | a => a

theorem reassembled_of_ne {a : EffectiveAddress} (h : a ≠ .bare .bp) : a.reassembled = a := by
  rw [reassembled]
  exact fun hbare => h hbare

theorem text_reassembled (a : EffectiveAddress) : a.reassembled.text = a.text := by
  by_cases h : a = .bare .bp
  · subst h
    rfl
  · rw [reassembled_of_ne h]

theorem tokens_reassembled (a : EffectiveAddress) : a.reassembled.tokens = a.tokens := by
  by_cases h : a = .bare .bp
  · subst h
    rfl
  · rw [reassembled_of_ne h]

/-- The displacement byte of a bare `bp` is the only one that is added. -/
theorem byteCount_reassembled (a : EffectiveAddress) :
    (Operand.memory a.reassembled).byteCount =
      (Operand.memory a).byteCount + if a = .bare .bp then 1 else 0 := by
  by_cases h : a = .bare .bp
  · subst h
    rfl
  · rw [reassembled_of_ne h, if_neg h, Nat.add_zero]

/-- An address that was decoded, with direct addresses or without them, becomes one that can be
encoded with them. -/
theorem IsEncodable.reassembled {settings : Settings.Decoder} {a : EffectiveAddress}
    (h : a.IsEncodable settings) : a.reassembled.IsEncodable {} := by
  by_cases hbare : a = .bare .bp
  · subst hbare
    trivial
  · rw [reassembled_of_ne hbare]
    cases a with
    | bare base => exact fun _ hbase => hbare (hbase ▸ rfl)
    | offset base displacement => trivial
    | direct displacement => exact ⟨rfl, h.2⟩

end EffectiveAddress

namespace Operand

/-- What an operand becomes through its text. -/
def reassembled : Operand → Operand
  | .memory a => .memory a.reassembled
  | o => o

theorem text_reassembled (o : Operand) : o.reassembled.text = o.text := by
  cases o with
  | memory a => exact a.text_reassembled
  | register r => rfl
  | immediate i => rfl

theorem phrase_reassembled (o : Operand) : o.reassembled.phrase = o.phrase := by
  cases o with
  | memory a => exact congrArg Phrase.address a.tokens_reassembled
  | register r => rfl
  | immediate i => rfl

end Operand

namespace Move

/-- One operand of a move is a bare `bp`. -/
def HasBareBp (move : Move) : Prop :=
  move.operands.destination = .memory (.bare .bp) ∨ move.operands.source = .memory (.bare .bp)

instance (move : Move) : Decidable move.HasBareBp :=
  inferInstanceAs (Decidable (_ ∨ _))

/-- What a move becomes through its line. -/
def reassembled (move : Move) : Move :=
  ⟨move.operation, ⟨move.operands.destination.reassembled, move.operands.source.reassembled⟩,
    move.size + if move.HasBareBp then 1 else 0⟩

variable {settings : Settings.Decoder}

/-- A decoded move becomes one that is decoded where there are direct addresses. -/
theorem WellFormed.reassembled {move : Move} (h : move.WellFormed settings) :
    move.reassembled.WellFormed {} := by
  cases h with
  | literal r i width => exact .literal r i width
  | registers r s width => exact .registers r s width
  | load r a encodable =>
    have hload := WellFormed.load r a.reassembled encodable.reassembled
    simpa [Move.reassembled, Operand.reassembled, HasBareBp, a.byteCount_reassembled,
      Nat.add_assoc] using hload
  | store r a encodable =>
    have hstore := WellFormed.store r a.reassembled encodable.reassembled
    simpa [Move.reassembled, Operand.reassembled, HasBareBp, a.byteCount_reassembled,
      Nat.add_assoc] using hstore

theorem WellFormed.not_hasBareBp (hdirect : settings.directAddress = true) {move : Move}
    (h : move.WellFormed settings) : ¬ move.HasBareBp :=
  fun hbare => h.isEncodable hbare hdirect rfl

end Move

/-- What is read from the line of a decoded instruction is what its move becomes through it. -/
theorem Assembly.readLine_reassembled {settings : Settings.Decoder} {i : Instruction}
    (h : i.move.WellFormed settings) : readLine i.text.toList = some i.move.reassembled := by
  have hassemble := assemble_phrase rfl h.reassembled
  rw [Move.reassembled, Operand.phrase_reassembled, Operand.phrase_reassembled] at hassemble
  exact (readLine_eq_assemble i).trans hassemble

theorem Assembly.text_eq_of_reassembled {i j : Instruction}
    (h : i.move.reassembled = j.move.reassembled) : i.text = j.text := by
  have hdestination : i.destination.reassembled = j.destination.reassembled :=
    congrArg (fun move => move.operands.destination) h
  have hsource : i.source.reassembled = j.source.reassembled :=
    congrArg (fun move => move.operands.source) h
  rw [text_eq_iff]
  constructor
  · rw [← i.destination.text_reassembled, hdestination, j.destination.text_reassembled]
  · rw [← i.source.text_reassembled, hsource, j.source.text_reassembled]

namespace Decoder

/-- Two decoded instructions have the same line exactly when their moves become the same through it.
Then they are of the same size, unless just one of them is from or to a bare `bp`, of which there is
none with direct addresses. -/
theorem text_eq_iff_reassembled {settings : Settings.Decoder} {image other : Image}
    {reader next : BitReader image} {reader' next' : BitReader other} {address address' : Int}
    {i j : Instruction} (hi : instructionAt settings address reader = .ok (i, next))
    (hj : instructionAt settings address' reader' = .ok (j, next')) :
    (i.text = j.text ↔ i.move.reassembled = j.move.reassembled) ∧
      (i.text = j.text →
        (i.size = j.size ↔
          settings.directAddress = true ∨ (i.move.HasBareBp ↔ j.move.HasBareBp))) := by
  have hwell := wellFormed_of_instructionAt hi
  have hwell' := wellFormed_of_instructionAt hj
  have hiff : i.text = j.text ↔ i.move.reassembled = j.move.reassembled := by
    refine ⟨fun htext => ?_, text_eq_of_reassembled⟩
    have hread := readLine_reassembled hwell
    rw [htext, readLine_reassembled hwell'] at hread
    exact (Option.some.inj hread).symm
  refine ⟨hiff, fun htext => ?_⟩
  have hsize : i.size + (if i.move.HasBareBp then 1 else 0) =
      j.size + if j.move.HasBareBp then 1 else 0 :=
    congrArg Move.size (hiff.1 htext)
  by_cases hdirect : settings.directAddress = true
  · rw [if_neg (hwell.not_hasBareBp hdirect), if_neg (hwell'.not_hasBareBp hdirect)] at hsize
    exact iff_of_true hsize (.inl hdirect)
  · rw [or_iff_right hdirect]
    by_cases hbare : i.move.HasBareBp
    · by_cases hbare' : j.move.HasBareBp
      · rw [if_pos hbare, if_pos hbare'] at hsize
        exact iff_of_true (by omega) (iff_of_true hbare hbare')
      · rw [if_pos hbare, if_neg hbare'] at hsize
        exact iff_of_false (by omega) fun hboth => hbare' (hboth.1 hbare)
    · by_cases hbare' : j.move.HasBareBp
      · rw [if_neg hbare, if_pos hbare'] at hsize
        exact iff_of_false (by omega) fun hboth => hbare (hboth.2 hbare')
      · rw [if_neg hbare, if_neg hbare'] at hsize
        exact iff_of_true (by omega) (iff_of_false hbare hbare')

/-- The two forms of `mov [bp], ch` differ in size, as just one of them is to a bare `bp`. -/
theorem text_eq_iff_reassembled_store :
    ∃ i j : Instruction,
      (∃ next, instructionAt ⟨false⟩ 0 (BitReader.start #[0x88, 0x2E]) = .ok (i, next)) ∧
      (∃ next, instructionAt ⟨false⟩ 0 (BitReader.start #[0x88, 0x6E, 0x00]) = .ok (j, next)) ∧
      i.text = "mov [bp], ch" ∧ i.text = j.text ∧
      i.move.reassembled = j.move.reassembled ∧
      ¬ (i.size = j.size) ∧ i.move.HasBareBp ∧ ¬ j.move.HasBareBp := by
  let i : Instruction := ⟨0, 2, .moveRegisterMemory, .memory (.bare .bp),
    .register ⟨.byte, 5⟩, by decide, by decide, rfl⟩
  let j : Instruction := ⟨0, 3, .moveRegisterMemory, .memory (.offset .bp (.byte 0)),
    .register ⟨.byte, 5⟩, by decide, by decide, rfl⟩
  obtain ⟨next, hi, -⟩ := @instructionAt_start_of_move #[0x88, 0x2E] ⟨false⟩ i rfl
  obtain ⟨next', hj, -⟩ := @instructionAt_start_of_move #[0x88, 0x6E, 0x00] ⟨false⟩ j rfl
  have hbare : i.move.HasBareBp := .inl rfl
  have hbare' : ¬ j.move.HasBareBp := by decide
  obtain ⟨htext, hsize⟩ := text_eq_iff_reassembled hi hj
  have hsame : i.text = j.text := htext.2 (by decide)
  refine ⟨i, j, ⟨next, hi⟩, ⟨next', hj⟩, by decide, hsame, htext.1 hsame, ?_, hbare, hbare'⟩
  rw [hsize hsame]
  rintro (hdirect | hboth)
  · cases hdirect
  · exact hbare' (hboth.1 hbare)

/-- Without direct addresses, a line does not tell the size of its instruction: `mov ax, [bp]` takes
up two bytes with a bare `bp` and three with a displacement. -/
theorem exists_text_eq_size_ne :
    ¬ ∀ (settings : Settings.Decoder) (image other : Image) (reader next : BitReader image)
      (reader' next' : BitReader other) (address address' : Int) (i j : Instruction),
      instructionAt settings address reader = .ok (i, next) →
      instructionAt settings address' reader' = .ok (j, next') →
      i.text = j.text → i.size = j.size := by
  intro hall
  let i : Instruction := ⟨0, 2, .moveRegisterMemory, .register ⟨.word, 0⟩,
    .memory (.bare .bp), by decide, by decide, rfl⟩
  let j : Instruction := ⟨0, 3, .moveRegisterMemory, .register ⟨.word, 0⟩,
    .memory (.offset .bp (.byte 0)), by decide, by decide, rfl⟩
  obtain ⟨next, hi, -⟩ := @instructionAt_start_of_move #[0x8B, 0x06] ⟨false⟩ i rfl
  obtain ⟨next', hj, -⟩ := @instructionAt_start_of_move #[0x8B, 0x46, 0x00] ⟨false⟩ j rfl
  have htext : i.text = j.text := text_eq_of_reassembled (by decide)
  exact absurd (hall _ _ _ _ _ _ _ _ _ _ _ hi hj htext) (by decide)

end Decoder

end MachineCode
