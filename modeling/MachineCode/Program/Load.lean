import MachineCode.Program.Sweep
import MachineCode.Settings.Reader

/-!
# Loading a binary

A binary is decoded under the settings that a text gives, or under the default settings if there is
no text.
-/

namespace MachineCode

/-- The settings that a text gives, or the default settings if there is no text. -/
def Settings.ofText? (text? : Option String) : Except Error Settings :=
  text?.elim ((default .standard).mapError .invalidSettings) parse

/-- Decodes a binary under the settings that a text gives, if there is one. -/
def Program.runWith (settingsText? : Option String) (image : Image) : Logged Program := do
  let settings ← Settings.ofText? settingsText?
  run settings.program image

/-- The program of a binary together with its log, where there is a program. -/
def Program.load (image : Image) (settingsText? : Option String) : Except Error Decoding :=
  (runWith settingsText? image).decoding

end MachineCode
