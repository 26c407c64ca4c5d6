import MachineCode.Instruction.Progress

/-!
# Instruction streams

The instructions of a whole image, one behind the other from its first byte, up to the first error.

## Main definitions

* `InstructionStream` : instructions, and the error that ended them, if any.
* `InstructionStream.ofImage` : the instructions of an image.
-/

namespace MachineCode

/-- Instructions one behind the other, and the error that ended them, if the end of the image did
not. -/
structure InstructionStream where
  instructions : List Instruction
  error? : Option Error
  deriving Repr

namespace InstructionStream

variable {image : Image}

/-- The stream with one more instruction in front. -/
def cons (instruction : Instruction) (stream : InstructionStream) : InstructionStream :=
  { stream with instructions := instruction :: stream.instructions }

/-- The instructions from a position on. The first byte of the image has the address `origin`. -/
def ofReader (settings : Settings.Decoder) (origin : Int) (reader : BitReader image) :
    InstructionStream :=
  if reader.atEnd = true then
    ⟨[], none⟩
  else
    match _h : Decoder.instructionAt settings (origin + reader.byteIndex) reader with
    | .ok (instruction, next) => (ofReader settings origin next).cons instruction
    | .error error => ⟨[], some error⟩
termination_by reader.remaining
decreasing_by
  have := Decoder.position_lt_of_instructionAt _h
  have := reader.position_add_remaining
  have := next.position_add_remaining
  omega

/-- The instructions of an image whose first byte has the address `origin`. -/
def ofImage (settings : Settings.Decoder) (origin : Int) (image : Image) : InstructionStream :=
  ofReader settings origin (BitReader.start image)

end InstructionStream

end MachineCode
