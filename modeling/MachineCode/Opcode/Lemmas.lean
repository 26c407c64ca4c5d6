import MachineCode.Decoder.Lemmas
import MachineCode.Opcode.Table

/-!
# Outcomes of the opcode look-up

Looking up an opcode in a table can only run out of bits.
-/

namespace MachineCode.Opcode

variable {image : Image}

/-- Looking up an opcode in a table can only run out of bits. -/
theorem onlyTruncates_classifyNibble (nibble : BitVec 4) (rows : List Row) :
    Decoder.OnlyTruncates (classifyNibble nibble rows : Decoder image _) := by
  induction rows with
  | nil => exact Decoder.onlyTruncates_pure _
  | cons row rows ih =>
    unfold classifyNibble
    split
    · split
      · exact Decoder.onlyTruncates_pure _
      · exact (Decoder.onlyTruncates_take _).bind fun _ => Decoder.onlyTruncates_pure _
      · refine Decoder.onlyTruncates_get.bind fun behindNibble =>
          (Decoder.onlyTruncates_take _).bind fun bits => ?_
        split
        · exact Decoder.onlyTruncates_pure _
        · exact (Decoder.onlyTruncates_set behindNibble).bind fun _ => ih
    · exact ih

theorem onlyTruncates_classify (table : List Row) :
    Decoder.OnlyTruncates (classify table : Decoder image _) :=
  (Decoder.onlyTruncates_take 4).bind fun nibble => onlyTruncates_classifyNibble nibble table

end MachineCode.Opcode
