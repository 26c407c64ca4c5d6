import MachineCode.Numeral.Lemmas
import MachineCode.Operation

/-!
# Decode faults

The reasons for which the bytes at a position do not decode. A fault names its place in the image.
Notes are added to it on its way out of the decoder; each of them names the byte at which an
instruction started.

## Main definitions

* `Fault.Cause` : why nothing was decoded.
* `Fault` : a cause with the offset that it blames.
* `Fault.skip?` : the number of bytes after which decoding can resume.
* `Fault.Names` : a text names an offset.

## Main results

* `Fault.names_message`, `Fault.names_startText` : messages and notes name the offsets that they are
  made of, and by `Fault.Names.unique` no other ones.
-/

namespace MachineCode

/-- Why the bits at a position are not an instruction. -/
inductive Fault.Cause where
  /-- The image ends inside a field. -/
  | truncated (requested available : Int)
  /-- The leading bits belong to no known family. -/
  | unknownOpcode (bits : Int) (width : Nat)
  /-- The family is known but not decoded; the size in bytes is given where the layout is known. -/
  | unimplemented (operation : Operation) (size : Option Int)
  /-- Any other reason, in words. -/
  | other (message : String)
  deriving DecidableEq, Repr

/-- A fault blames an offset of the image. Its notes name bytes at which instructions started, in
the order in which they have been added. -/
structure Fault where
  offset : Int
  cause : Fault.Cause
  starts : List Nat := []
  deriving DecidableEq, Repr

namespace Fault

/-- The name of the kind of a fault. -/
def Cause.kind : Cause → String
  | .truncated .. => "InsufficientInput"
  | .unknownOpcode .. => "UnsupportedOpcode"
  | .unimplemented .. => "UnimplementedVariant"
  | .other .. => "DecodeError"

/-- A cause in words. -/
def Cause.text : Cause → String
  | .truncated requested available =>
    "input exhausted, " ++ Numeral.decimal requested ++ " bits requested, " ++
      Numeral.decimal available ++ " available"
  | .unknownOpcode bits width => "unsupported opcode " ++ Numeral.padded 2 width bits
  | .unimplemented operation _ => "unimplemented variant " ++ operation.name
  | .other message => message

/-- A fault in words names its cause and its offset. -/
def message (fault : Fault) : String :=
  fault.cause.text ++ " at offset " ++ Numeral.offset fault.offset

/-- The note on where the faulty instruction starts. -/
def startText (start : Nat) : String :=
  "instruction started at offset " ++ Numeral.offset start

/-- The notes of a fault, besides its message. -/
def notes (fault : Fault) : List String :=
  fault.starts.map startText

/-- The fault with one more note, as one of an instruction that starts at a byte. -/
def startedAt (fault : Fault) (start : Nat) : Fault :=
  { fault with starts := fault.starts ++ [start] }

/-- The number of bytes to step over a fault: the size of the instruction where it is known,
otherwise a single byte. There is nothing to step to when the image is exhausted. -/
def skip? (fault : Fault) : Option Int :=
  match fault.cause with
  | .truncated .. => none
  | .unimplemented _ (some size) => some size
  | .unimplemented _ none | .unknownOpcode .. | .other .. => some 1

@[simp]
theorem skip?_startedAt (fault : Fault) (start : Nat) :
    (fault.startedAt start).skip? = fault.skip? :=
  rfl

/-! ### Named offsets -/

/-- A text says what `subject` says, and names the offset `n` of it by a hexadecimal numeral. -/
def Names (text subject : String) (n : Nat) : Prop :=
  ∃ numeral, text = subject ++ " at offset " ++ numeral ∧ Numeral.IsHexadecimal 4 numeral n

theorem names_startText (start : Nat) : Names (startText start) "instruction started" start :=
  ⟨_, rfl, Numeral.isHexadecimal_offset start⟩

theorem names_message {fault : Fault} {n : Nat} (h : fault.offset = n) :
    Names fault.message fault.cause.text n :=
  ⟨_, by rw [message, h], Numeral.isHexadecimal_offset n⟩

/-- A text names no two offsets of one subject. -/
theorem Names.unique {text subject : String} {m n : Nat} (h : Names text subject m)
    (h' : Names text subject n) : m = n := by
  obtain ⟨numeral, rfl, hm⟩ := h
  obtain ⟨other, heq, hn⟩ := h'
  obtain rfl : numeral = other := by simpa using heq
  exact hm.unique hn

end Fault

end MachineCode
