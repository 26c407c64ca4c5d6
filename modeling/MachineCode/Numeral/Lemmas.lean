import MachineCode.Numeral

/-!
# Reading padded numerals

A numeral tells its number: the value of its digits is the number that it was made of, however many
zeros stand in front of them. So two texts that end with the numerals of offsets are the same only
if the offsets are.

## Main definitions

* `Numeral.value` : the number that digits denote.
* `Numeral.Denotes` : digits that fill a number of places and denote a number.
* `Numeral.IsHexadecimal` : the text of such digits in base sixteen, behind their mark.

## Main results

* `Numeral.denotes_paddedChars` : a padded numeral denotes its number.
* `Numeral.IsHexadecimal.unique` : no text is the numeral of two numbers.
-/

namespace MachineCode.Numeral

/-- The value of a digit, which is a figure or a capital letter. -/
def digitValue (c : Char) : Nat :=
  if c.isDigit then c.toNat - '0'.toNat else c.toNat - 'A'.toNat + 10

/-- The number that digits denote in a base. -/
def value (base : Nat) (chars : List Char) : Nat :=
  chars.foldl (fun n c => base * n + digitValue c) 0

/-- Digits that fill at least `width` places and denote `n`. -/
structure Denotes (base width : Nat) (chars : List Char) (n : Nat) : Prop where
  width_le : width ≤ chars.length
  isDigit : ∀ c ∈ chars, c.isDigit ∨ 'A' ≤ c ∧ c ≤ 'F'
  value_eq : value base chars = n

/-- A text is the hexadecimal numeral of `n`, with at least `width` places behind its mark. -/
def IsHexadecimal (width : Nat) (text : String) (n : Nat) : Prop :=
  ∃ chars, text = "0x" ++ String.ofList chars ∧ Denotes 16 width chars n

theorem digitValue_digitChar {d : Nat} (h : d < 16) : digitValue d.digitChar.toUpper = d := by
  revert d
  decide

theorem isDigit_digitChar {d : Nat} (h : d < 16) :
    d.digitChar.toUpper.isDigit ∨ 'A' ≤ d.digitChar.toUpper ∧ d.digitChar.toUpper ≤ 'F' := by
  revert d
  decide

theorem value_append_singleton (base : Nat) (chars : List Char) (c : Char) :
    value base (chars ++ [c]) = base * value base chars + digitValue c := by
  rw [value, List.foldl_append]
  rfl

theorem value_zeros_append (base count : Nat) (chars : List Char) :
    value base (List.replicate count '0' ++ chars) = value base chars := by
  have hzero : base * 0 + digitValue '0' = 0 := rfl
  induction count with
  | zero => rfl
  | succ count ih =>
    rw [List.replicate_succ, List.cons_append, value, List.foldl_cons, hzero]
    exact ih

theorem digits_eq_append {base n : Nat} (hbase : 1 < base) (h : base ≤ n) :
    digits base n = digits base (n / base) ++ [(n % base).digitChar.toUpper] := by
  rw [digits, Nat.toDigits_eq_if hbase, if_neg (Nat.not_lt.2 h), List.map_append]
  rfl

theorem digits_of_lt {base n : Nat} (hbase : 1 < base) (h : n < base) :
    digits base n = [n.digitChar.toUpper] := by
  rw [digits, Nat.toDigits_eq_if hbase, if_pos h]
  rfl

/-- The digits of a number denote it. -/
theorem denotes_digits {base : Nat} (hbase : 1 < base) (hmax : base ≤ 16) (n : Nat) :
    Denotes base 1 (digits base n) n := by
  induction n using Nat.strongRecOn with
  | _ n ih =>
    by_cases h : n < base
    · rw [digits_of_lt hbase h]
      have hlt : n < 16 := by omega
      refine ⟨Nat.le_refl 1, fun c hc => ?_, ?_⟩
      · rw [List.mem_singleton.1 hc]
        exact isDigit_digitChar hlt
      · exact (Nat.zero_add _).trans (digitValue_digitChar hlt)
    · have hle : base ≤ n := by omega
      have hlast : n % base < 16 := Nat.lt_of_lt_of_le (Nat.mod_lt n (by omega)) hmax
      obtain ⟨hwidth, hdigits, hvalue⟩ := ih (n / base) (Nat.div_lt_self (by omega) hbase)
      rw [digits_eq_append hbase hle]
      refine ⟨by simp, fun c hc => ?_, ?_⟩
      · rcases List.mem_append.1 hc with hc | hc
        · exact hdigits c hc
        · rw [List.mem_singleton.1 hc]
          exact isDigit_digitChar hlast
      · rw [value_append_singleton, hvalue, digitValue_digitChar hlast]
        exact Nat.div_add_mod n base

/-- A padded numeral denotes its number. -/
theorem denotes_paddedChars {base : Nat} (hbase : 1 < base) (hmax : base ≤ 16) (width n : Nat) :
    Denotes base width (paddedChars base width n) n := by
  have hsign : sign (n : Int) = [] := if_neg (by omega)
  obtain ⟨-, hdigits, hvalue⟩ := denotes_digits hbase hmax n
  rw [paddedChars, hsign, List.nil_append, Int.natAbs_natCast]
  refine ⟨?_, fun c hc => ?_, (value_zeros_append ..).trans hvalue⟩
  · rw [List.length_append, List.length_replicate, List.length_nil]
    omega
  · rcases List.mem_append.1 hc with hc | hc
    · rw [List.eq_of_mem_replicate hc]
      decide
    · exact hdigits c hc

theorem isHexadecimal_address (n : Nat) : IsHexadecimal 5 (address n) n :=
  ⟨_, rfl, denotes_paddedChars (by decide) (by decide) 5 n⟩

theorem isHexadecimal_offset (n : Nat) : IsHexadecimal 4 (offset n) n :=
  ⟨_, rfl, denotes_paddedChars (by decide) (by decide) 4 n⟩

/-- No text is the numeral of two numbers. -/
theorem IsHexadecimal.unique {width other : Nat} {text : String} {m n : Nat}
    (h : IsHexadecimal width text m) (h' : IsHexadecimal other text n) : m = n := by
  obtain ⟨chars, rfl, hm⟩ := h
  obtain ⟨others, htext, hn⟩ := h'
  have hchars : chars = others := by
    simpa using congrArg String.toList htext
  rw [← hm.value_eq, hchars, hn.value_eq]

end MachineCode.Numeral
