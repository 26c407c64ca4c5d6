import MachineCode.Proofs.Move.Encoding

/-!
# Normal forms of moves

Different bytes can decode to the same move: two bits of the opcode byte of a move between registers
and memory are not looked at, and the two registers of a move between registers can change places
together with the direction. This file fixes these choices in the bytes of a move. What is left is
the encoding of the move.

## Main definitions

* `Move.normalBytes` : the bytes of a move with all choices fixed.

## Main results

* `Move.normalBytes_eq_encode` : the normal form of the bytes of a move is its encoding.
-/

namespace MachineCode

namespace Move

/-- The opcode byte of a move between registers and memory with the two bits that are not looked at
set to `10`. -/
def normalOpcode (opcode : UInt8) : UInt8 :=
  (opcode &&& 0xF3) ||| 0x08

/-- A mode byte whose register and operand have changed places. -/
def swapFields (mode : UInt8) : UInt8 :=
  (mode &&& (0xC0 : UInt8)) ||| ((mode <<< 3) &&& (0x38 : UInt8)) |||
    ((mode >>> 3) &&& (0x07 : UInt8))

/-- The normal form of the bytes of a move: where it is one between registers and memory, the two
bits of the opcode byte that are not looked at become `10`, and where it is one between registers
whose first register is the destination, that bit is cleared and the registers change places. All
other bytes stay as they are. -/
def normalBytes (operation : Operation) : List UInt8 → List UInt8
  | opcode :: mode :: rest =>
    if operation = .moveRegisterMemory then
      if mode &&& 0xC0 = 0xC0 ∧ opcode &&& 0x02 = 0x02 then
        (normalOpcode opcode &&& 0xFD) :: swapFields mode :: rest
      else
        normalOpcode opcode :: mode :: rest
    else
      opcode :: mode :: rest
  | bytes => bytes

theorem normalBytes_of_ne {operation : Operation} (h : operation ≠ .moveRegisterMemory)
    (bytes : List UInt8) : normalBytes operation bytes = bytes := by
  simp only [normalBytes]
  split
  · rw [if_neg h]
  · rfl

/-! ### Bytes and their fields -/

theorem mode_eq_three_iff (m : UInt8) : m &&& 0xC0 = 0xC0 ↔ m >>> 6 = 3 := by
  revert m
  exact forall_byte (by decide +kernel)

theorem normalOpcode_eq {b : UInt8} (h : b >>> 4 = 8) :
    normalOpcode b = moveOpcode (if b &&& 2 = 2 then 1 else 0) (ByteString.width b) := by
  have hall : ∀ b : UInt8, b >>> 4 = 8 →
      normalOpcode b = moveOpcode (if b &&& 2 = 2 then 1 else 0) (ByteString.width b) :=
    forall_byte (by decide +kernel)
  exact hall b h

theorem moveOpcode_clear (d : BitVec 1) (w : Width) :
    moveOpcode d w &&& 0xFD = moveOpcode 0 w := by
  revert d
  cases w <;> decide

theorem swapFields_eq (m : UInt8) :
    swapFields m = modeByte (.ofNat 2 (m >>> 6).toNat) (.ofNat 3 (m &&& 7).toNat)
      (.ofNat 3 ((m >>> 3) &&& 7).toNat) := by
  revert m
  exact forall_byte (by decide +kernel)

theorem eq_literalOpcode {b : UInt8} (h : b >>> 4 = 11) :
    b = literalOpcode ⟨ByteString.literalWidth b, .ofNat 3 (b &&& 7).toNat⟩ := by
  have hall : ∀ b : UInt8, b >>> 4 = 11 →
      b = literalOpcode ⟨ByteString.literalWidth b, .ofNat 3 (b &&& 7).toNat⟩ :=
    forall_byte (by decide +kernel)
  exact hall b h

/-! ### The normal form -/

variable {settings : Settings.Decoder}

/-- A move between registers has two encodings, and its normal form is the one whose mode byte
selects the destination. -/
theorem normalBytes_registers {b m : UInt8} (hb : b >>> 4 = 8) (hm : m >>> 6 = 3) :
    normalBytes .moveRegisterMemory [b, m] =
      encode ⟨.moveRegisterMemory, ByteString.operands b m
        (.register ⟨ByteString.width b, .ofNat 3 (m &&& 7).toNat⟩), 2⟩ := by
  have hfields := ByteString.eq_modeByte m
  have hswap := swapFields_eq m
  rw [hm] at hfields hswap
  rw [normalBytes, if_pos rfl, ByteString.operands]
  by_cases hd : b &&& 2 = 2
  · rw [if_pos ⟨(mode_eq_three_iff m).2 hm, hd⟩, normalOpcode_eq hb, moveOpcode_clear, hswap,
      if_pos hd]
    rfl
  · rw [if_neg (fun h => hd h.2), normalOpcode_eq hb, if_neg hd, if_neg hd]
    exact congrArg (fun byte => [_, byte]) hfields

/-- A move between a register and memory has one encoding, up to the bits that are not looked at. -/
theorem normalBytes_memory {b m : UInt8} {a : EffectiveAddress} {size : Nat} (hb : b >>> 4 = 8)
    (hm : m >>> 6 ≠ 3) (hmode : m = a.modeByte (.ofNat 3 ((m >>> 3) &&& 7).toNat)) :
    normalBytes .moveRegisterMemory (b :: m :: a.bytes) =
      encode ⟨.moveRegisterMemory, ByteString.operands b m (.memory a), size⟩ := by
  rw [normalBytes, if_pos rfl, if_neg (fun h => hm ((mode_eq_three_iff m).1 h.1)),
    ByteString.operands]
  by_cases hd : b &&& 2 = 2
  · rw [normalOpcode_eq hb, if_pos hd, if_pos hd]
    exact congrArg (fun byte => _ :: byte :: a.bytes) hmode
  · rw [normalOpcode_eq hb, if_neg hd, if_neg hd]
    exact congrArg (fun byte => _ :: byte :: a.bytes) hmode

/-- The normal form of the bytes of a move is its encoding. -/
theorem normalBytes_eq_encode {bytes : List UInt8} {move : Move}
    (h : ByteString.outcome settings bytes = .ok move) :
    normalBytes move.operation (bytes.take move.size) = move.encode := by
  rcases ByteString.outcome_eq_ok h with ⟨b, m, rest, p, rfl, hb, hlocation, rfl⟩ |
    ⟨b, rest, p, rfl, hb, hliteral, rfl⟩
  · rw [Nat.add_comm 2, List.take_succ_cons, List.take_succ_cons]
    rw [ByteString.location] at hlocation
    by_cases hm : m >>> 6 = 3
    · rw [if_pos hm] at hlocation
      cases hlocation
      exact normalBytes_registers hb hm
    · rw [if_neg hm] at hlocation
      obtain ⟨q, hq, rfl⟩ := Option.map_eq_some_iff.1 hlocation
      obtain ⟨-, -, hmode, hbytes⟩ := ByteString.of_address hm hq
      rw [hbytes]
      exact normalBytes_memory hb hm hmode
  · obtain ⟨-, -, hbytes⟩ := ByteString.bytes_of_literal hliteral
    rw [Nat.add_comm 1, List.take_succ_cons, hbytes, normalBytes_of_ne Operation.noConfusion]
    exact congrArg (· :: p.1.bytes) (eq_literalOpcode hb)

end Move

end MachineCode
