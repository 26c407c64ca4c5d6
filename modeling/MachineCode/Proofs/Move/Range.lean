import MachineCode.Proofs.Move.Encoding
import MachineCode.Proofs.Sweep.Run

/-!
# The range of the decoder

Which instructions there are: those that some bytes decode to. The shapes of decoded moves were
found from bytes, but a reader can also stand inside a byte. As a move is decoded from whole bytes
wherever it stands, it has one of these shapes there too. In the other direction, the encoding of a
move is an image that holds the move and nothing else.

## Main definitions

* `EffectiveAddress.moveSize?` : the number of bytes of a move from or to an address.

## Main results

* `Decoder.wellFormed_of_instructionAt` : decoded instructions are of these shapes.
* `Decoder.exists_image_iff` : the instructions that images of their size decode to.
-/

namespace MachineCode

namespace EffectiveAddress

/-- The number of bytes of a move between a register and an address, if a mode byte can select the
address. -/
def moveSize? (settings : Settings.Decoder) : EffectiveAddress → Option Nat
  | .bare base => if settings.directAddress = true ∧ base = .bp then none else some 2
  | .offset _ (.byte _) => some 3
  | .offset _ (.word _) => some 4
  | .direct (.byte _) => none
  | .direct (.word _) => if settings.directAddress = true then some 4 else none

theorem moveSize?_eq_some_iff {settings : Settings.Decoder} {a : EffectiveAddress} {size : Nat} :
    a.moveSize? settings = some size ↔
      a.IsEncodable settings ∧ 2 + (Operand.memory a).byteCount = size := by
  cases a with
  | bare base => simp [moveSize?, IsEncodable, Operand.byteCount]
  | offset base displacement =>
    cases displacement <;>
      simp [moveSize?, IsEncodable, Operand.byteCount, Immediate.byteCount, Immediate.width]
  | direct displacement =>
    cases displacement <;>
      simp [moveSize?, IsEncodable, Operand.byteCount, Immediate.byteCount, Immediate.width]

end EffectiveAddress

namespace Move

variable {settings : Settings.Decoder}

theorem wellFormed_of_bits {bits : List Bool} {move : Move}
    (h : Scan.outcome settings bits = .ok move) : move.WellFormed settings := by
  have hsize : (Scan.outcome settings bits).size? = some (move.size : Int) := by
    rw [h]
    rfl
  obtain ⟨bytes, more, -, hbytes⟩ := Scan.exists_bytes_of_size? hsize
  exact wellFormed_of_outcome (hbytes.trans h)

/-- The shapes of decoded moves, one for each pair of kinds of operands. -/
theorem wellFormed_iff {operation : Operation} {destination source : Operand} {size : Nat} :
    WellFormed settings ⟨operation, ⟨destination, source⟩, size⟩ ↔
      (operation = .moveImmediateRegister ∧ ∃ r literal, literal.width = r.width ∧
        destination = .register r ∧ source = .immediate literal ∧
        size = if r.width = .byte then 2 else 3) ∨
      (operation = .moveRegisterMemory ∧
        ((∃ r s, r.width = s.width ∧ destination = .register r ∧ source = .register s ∧
          size = 2) ∨
        ∃ r a, a.moveSize? settings = some size ∧
          (destination = .register r ∧ source = .memory a ∨
            destination = .memory a ∧ source = .register r))) := by
  have hliteral : ∀ literal : Immediate,
      1 + literal.byteCount = if literal.width = .byte then 2 else 3 := by
    rintro (_ | _) <;> rfl
  constructor
  · intro h
    cases h with
    | literal r i width =>
      refine .inl ⟨rfl, r, i, width, rfl, rfl, ?_⟩
      rw [← width]
      exact hliteral i
    | registers r s width => exact .inr ⟨rfl, .inl ⟨r, s, width, rfl, rfl, rfl⟩⟩
    | load r a encodable =>
      exact .inr ⟨rfl, .inr ⟨r, a, EffectiveAddress.moveSize?_eq_some_iff.2 ⟨encodable, rfl⟩,
        .inl ⟨rfl, rfl⟩⟩⟩
    | store r a encodable =>
      exact .inr ⟨rfl, .inr ⟨r, a, EffectiveAddress.moveSize?_eq_some_iff.2 ⟨encodable, rfl⟩,
        .inr ⟨rfl, rfl⟩⟩⟩
  · rintro (⟨rfl, r, i, width, rfl, rfl, rfl⟩ |
      ⟨rfl, ⟨r, s, width, rfl, rfl, rfl⟩ | ⟨r, a, h, hops⟩⟩)
    · rw [← width, ← hliteral i]
      exact .literal r i width
    · exact .registers r s width
    · obtain ⟨encodable, rfl⟩ := EffectiveAddress.moveSize?_eq_some_iff.1 h
      rcases hops with ⟨rfl, rfl⟩ | ⟨rfl, rfl⟩
      · exact .load r a encodable
      · exact .store r a encodable

end Move

namespace Decoder

variable {settings : Settings.Decoder} {image : Image}

/-- A decoded instruction makes a move of one of the shapes of decoded moves, wherever the reader
stands. -/
theorem wellFormed_of_instructionAt {address : Int} {reader next : BitReader image}
    {i : Instruction} (h : instructionAt settings address reader = .ok (i, next)) :
    i.move.WellFormed settings :=
  Move.wellFormed_of_bits (outcome_of_instructionAt h).1

/-- An image that holds a move and nothing else decodes to it, and every move of one of the shapes
of decoded moves has such an image. -/
theorem exists_image_iff_wellFormed (address : Nat) {move : Move} :
    (∃ (image : Image) (i : Instruction) (next : BitReader image), image.size = move.size ∧
        instructionAt settings address (BitReader.start image) = .ok (i, next) ∧
        next.atEnd = true ∧ i.address = address ∧ i.move = move) ↔
      move.WellFormed settings := by
  constructor
  · rintro ⟨image, i, next, -, hdecode, -, -, rfl⟩
    exact wellFormed_of_instructionAt hdecode
  · intro h
    have hsize : move.encode.toArray.size = move.size := Move.length_encode h
    have houtcome : ByteString.outcome settings move.encode.toArray.toList = .ok move := by
      have hencode := Move.outcome_encode h []
      rwa [List.append_nil] at hencode
    obtain ⟨i, next, hdecode, haddress, hmove, hnext⟩ := instructionAt_start address houtcome
    exact ⟨_, i, next, hsize, hdecode, (Program.atEnd_iff hnext).2 hsize.le, haddress, hmove⟩

/-- The instructions that images decode to which hold them and nothing else. A literal is moved to a
register of its width. Otherwise, the operands are two registers of one width, or a register and an
address, in either order, where a bare `bp` is an address without direct addresses only, and a
direct address is one with them only. -/
theorem exists_image_iff (settings : Settings.Decoder) (address : Nat) (operation : Operation)
    (destination source : Operand) (size : Nat) :
    (∃ (image : Image) (i : Instruction) (next : BitReader image), image.size = size ∧
        instructionAt settings address (BitReader.start image) = .ok (i, next) ∧
        next.atEnd = true ∧ i.address = address ∧ i.operation = operation ∧
        i.destination = destination ∧ i.source = source ∧ i.size = size) ↔
      (operation = .moveImmediateRegister ∧ ∃ r literal, literal.width = r.width ∧
        destination = .register r ∧ source = .immediate literal ∧
        size = if r.width = .byte then 2 else 3) ∨
      (operation = .moveRegisterMemory ∧
        ((∃ r s, r.width = s.width ∧ destination = .register r ∧ source = .register s ∧
          size = 2) ∨
        ∃ r a, a.moveSize? settings = some size ∧
          (destination = .register r ∧ source = .memory a ∨
            destination = .memory a ∧ source = .register r))) := by
  rw [← Move.wellFormed_iff, ← exists_image_iff_wellFormed address]
  simp only [Instruction.move, Move.mk.injEq, Operands.mk.injEq, and_assoc]

end Decoder

end MachineCode
