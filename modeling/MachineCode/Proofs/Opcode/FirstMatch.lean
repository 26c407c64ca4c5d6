import MachineCode.Proofs.BitString.Outcome

/-!
# First match in an opcode table

An opcode table may be any list of rows, with several rows for the same leading bits and extensions
of different widths behind them. The look-up goes from row to row, reads an extension where there
is one and returns behind the leading bits where the extension differs. This file says without that
movement which row decides: the first one that fits the bits, where a row whose extension does not
fit into what is left counts as fitting, because the look-up ends there. Rows that are appended to
a table are therefore asked only about opcodes that no earlier row decides on.

## Main definitions

* `Opcode.Row.Decides` : a look-up that comes to the row ends there.
* `Opcode.firstMatch` : the family of an opcode by the first row that decides.

## Main results

* `Scan.classify_eq_firstMatch` : looking up a string of bits finds the first match.
* `Opcode.classifyNibble_append` : appended rows are asked where no earlier row decides.
* `Opcode.classify_firstMatch` : both for a look-up at any position.
-/

namespace MachineCode

open Image

namespace Opcode

/-- The value that the bits of an extension have to form, if they have to form one. -/
def Extension.value? : Extension → Option Nat
  | .absent | .ignored _ _ => none
  | .exactly _ _ value => some value.toNat

/-- A row decides on a string of bits that begins with its leading four and goes on with any bits,
with fewer bits than its extension has, or with the value of its extension. -/
def Row.Decides (row : Row) (bits : List Bool) : Prop :=
  row.nibble.toNat = bitsValue (bits.take 4) ∧
    (row.extension.width = 0 ∨ bits.length < 4 + row.extension.width ∨
      row.extension.value? = none ∨
      row.extension.value? = some (bitsValue ((bits.drop 4).take row.extension.width)))

instance (row : Row) (bits : List Bool) : Decidable (row.Decides bits) :=
  inferInstanceAs (Decidable (_ ∧ _))

/-- The family of an opcode that is the first `width` of some bits. -/
def Classification.ofBits (operation : Operation) (width : Nat) (bits : List Bool) :
    Classification :=
  ⟨operation, width, BitVec.ofNat width (bitsValue (bits.take width))⟩

/-- The opcode of the leading four of some bits and an extension of `width` behind them, which may
be cut off. -/
def Classification.extended (operation : Operation) (width : Nat) (bits : List Bool) :
    Except Shortage Classification :=
  if h : bits.length - 4 < width then
    .error ⟨width, bits.length - 4, h⟩
  else
    .ok (.ofBits operation (4 + width) bits)

/-- The family of an opcode by the first row that decides, with the extension of that row. Without
such a row, the family is not known and the opcode is the leading four bits, which have to be there
in any case. -/
def firstMatch (table : List Row) (bits : List Bool) : Except Shortage Classification :=
  if h : bits.length < 4 then
    .error ⟨4, bits.length, h⟩
  else
    match table.find? (·.Decides bits) with
    | some row => Classification.extended row.operation row.extension.width bits
    | none => .ok (.ofBits .unrecognized 4 bits)

/-- A first match is not longer than the bits, and it is the number of its bits. -/
theorem ofBits_of_firstMatch {table : List Row} {bits : List Bool} {opcode : Classification}
    (h : firstMatch table bits = .ok opcode) :
    opcode.width ≤ bits.length ∧ opcode = .ofBits opcode.operation opcode.width bits := by
  rw [firstMatch] at h
  split at h
  · cases h
  split at h
  · rw [Classification.extended] at h
    split at h
    · cases h
    · cases h
      exact ⟨by simp only [Classification.ofBits]; omega, rfl⟩
  · cases h
    exact ⟨by simp only [Classification.ofBits]; omega, rfl⟩

theorem ofNat_take_eq_iff {width : Nat} (bits : List Bool) (value : BitVec width) :
    BitVec.ofNat width (bitsValue (bits.take width)) = value ↔
      value.toNat = bitsValue (bits.take width) := by
  rw [← BitVec.toNat_inj, BitVec.toNat_ofNat, Nat.mod_eq_of_lt (bitsValue_take_lt bits width)]
  exact eq_comm

theorem ofNat_append_ofNat {bits : List Bool} {width : Nat} (h : 4 + width ≤ bits.length) :
    BitVec.ofNat 4 (bitsValue (bits.take 4)) ++
        BitVec.ofNat width (bitsValue ((bits.drop 4).take width)) =
      BitVec.ofNat (4 + width) (bitsValue (bits.take (4 + width))) := by
  have hback := bitsValue_take_lt (bits.drop 4) width
  refine BitVec.eq_of_toNat_eq ?_
  rw [BitVec.toNat_append, BitVec.toNat_ofNat, BitVec.toNat_ofNat, BitVec.toNat_ofNat,
    Nat.mod_eq_of_lt (bitsValue_take_lt bits 4), Nat.mod_eq_of_lt hback,
    Nat.mod_eq_of_lt (bitsValue_take_lt bits (4 + width)), ← Nat.shiftLeft_add_eq_or_of_lt hback,
    Nat.shiftLeft_eq, bitsValue_take_add bits 4 width h]

end Opcode

namespace Scan

open Opcode

variable {bits : List Bool}

theorem take_extension_of_lt {width : Nat} (h : bits.length - 4 < width) :
    take width (bits.drop 4) = .error ⟨width, bits.length - 4, h⟩ := by
  rw [take, dif_neg (by rw [List.length_drop]; omega)]
  simp only [List.length_drop]

theorem take_extension_of_le {width : Nat} (h : 4 + width ≤ bits.length) :
    take width (bits.drop 4) =
      .ok (BitVec.ofNat width (bitsValue ((bits.drop 4).take width)), bits.drop (4 + width)) := by
  rw [take, dif_pos (by rw [List.length_drop]; omega), List.drop_drop]

theorem map_extended (operation : Operation) (width : Nat) (hlength : 4 ≤ bits.length) :
    ((Classification.extended operation width bits).map fun opcode =>
        (opcode, bits.drop opcode.width)) =
      (take width (bits.drop 4)).map fun field =>
        (⟨operation, 4 + width, BitVec.ofNat 4 (bitsValue (bits.take 4)) ++ field.1⟩, field.2) := by
  rw [Classification.extended]
  by_cases hwidth : bits.length - 4 < width
  · rw [take_extension_of_lt hwidth, dif_pos hwidth]
    rfl
  · rw [take_extension_of_le (by omega), dif_neg hwidth]
    simp only [Except.map, Classification.ofBits, ofNat_append_ofNat
      (show 4 + width ≤ bits.length by omega)]

/-- The look-up ends at a row that decides, with the extension of that row. -/
theorem classifyNibble_of_decides {row : Row} (hlength : 4 ≤ bits.length)
    (h : row.Decides bits) (rows : List Row) :
    classifyNibble (BitVec.ofNat 4 (bitsValue (bits.take 4))) (row :: rows) (bits.drop 4) =
      (Classification.extended row.operation row.extension.width bits).map fun opcode =>
        (opcode, bits.drop opcode.width) := by
  obtain ⟨hnibble, hextension⟩ := h
  rw [classifyNibble, if_pos ((ofNat_take_eq_iff bits row.nibble).2 hnibble).symm]
  cases hrow : row.extension with
  | absent => rfl
  | ignored width width_pos =>
    rw [Extension.width, map_extended row.operation width hlength]
    dsimp only
    rw [Decoder.bind_apply]
    cases take width (bits.drop 4) <;> rfl
  | exactly width width_pos value =>
    rw [hrow] at hextension
    rw [Extension.width, map_extended row.operation width hlength]
    dsimp only
    rw [Decoder.bind_apply, Decoder.get_apply]
    simp only [Except.bind]
    rw [Decoder.bind_apply]
    -- an extension that is cut off ends the look-up before its value is compared
    by_cases hwidth : bits.length - 4 < width
    · rw [take_extension_of_lt hwidth]
      rfl
    · have hvalue : value.toNat = bitsValue ((bits.drop 4).take width) := by
        rcases hextension with hzero | hshort | hnone | hsome
        · exact absurd hzero width_pos.ne'
        · rw [Extension.width] at hshort
          omega
        · cases hnone
        · exact Option.some.inj hsome
      rw [take_extension_of_le (by omega)]
      simp only [Except.bind, if_pos ((ofNat_take_eq_iff _ value).2 hvalue)]
      rfl

/-- The look-up goes on behind a row that does not decide, from where it has come to the row. -/
theorem classifyNibble_of_not_decides {row : Row} (h : ¬ row.Decides bits) (rows : List Row) :
    classifyNibble (BitVec.ofNat 4 (bitsValue (bits.take 4))) (row :: rows) (bits.drop 4) =
      classifyNibble (BitVec.ofNat 4 (bitsValue (bits.take 4))) rows (bits.drop 4) := by
  rw [classifyNibble]
  by_cases hnibble : row.nibble = BitVec.ofNat 4 (bitsValue (bits.take 4))
  · rw [if_pos hnibble]
    have hextension := not_and.1 h ((ofNat_take_eq_iff bits row.nibble).1 hnibble.symm)
    cases hrow : row.extension with
    | absent => simp [hrow, Extension.width] at hextension
    | ignored width width_pos => simp [hrow, Extension.value?] at hextension
    | exactly width width_pos value =>
      rw [hrow] at hextension
      simp only [Extension.width, Extension.value?, not_or] at hextension
      obtain ⟨-, hlong, -, hvalue⟩ := hextension
      dsimp only
      rw [Decoder.bind_apply, Decoder.get_apply]
      simp only [Except.bind]
      rw [Decoder.bind_apply, take_extension_of_le (by omega)]
      simp only [Except.bind]
      rw [if_neg fun heq => hvalue (congrArg some ((ofNat_take_eq_iff _ value).1 heq))]
      rfl
  · rw [if_neg hnibble]

/-- Looking up a string of bits finds the first match and leaves the bits behind its
opcode. -/
theorem classify_eq_firstMatch (table : List Row) (bits : List Bool) :
    classify table bits =
      (firstMatch table bits).map fun opcode => (opcode, bits.drop opcode.width) := by
  rw [classify, firstMatch, Decoder.bind_apply, take]
  by_cases hlength : bits.length < 4
  · rw [dif_pos hlength, dif_neg (by omega)]
    rfl
  rw [dif_neg hlength, dif_pos (by omega)]
  simp only [Except.bind]
  induction table with
  | nil => rfl
  | cons row rows ih =>
    by_cases hdecides : row.Decides bits
    · rw [classifyNibble_of_decides (by omega) hdecides, List.find?_cons_of_pos (by simpa)]
    · rw [classifyNibble_of_not_decides hdecides, List.find?_cons_of_neg (by simpa), ih]

end Scan

namespace Opcode

variable {image : Image}

/-- Where no row decides, the leading bits are looked up in the rows that are appended, from the
same place. Otherwise these rows play no part. -/
theorem classifyNibble_append (nibble : BitVec 4) (rows more : List Row)
    (reader : BitReader image) :
    classifyNibble nibble (rows ++ more) reader =
      match classifyNibble nibble rows reader with
      | .ok (opcode, next) =>
        if opcode.operation = .unrecognized then
          classifyNibble nibble more reader
        else
          .ok (opcode, next)
      | .error error => .error error := by
  induction rows with
  | nil => rfl
  | cons row rows ih =>
    rw [List.cons_append, classifyNibble, classifyNibble]
    by_cases hnibble : row.nibble = nibble
    · rw [if_pos hnibble, if_pos hnibble]
      cases hrow : row.extension with
      | absent => exact (if_neg row.isRecognized).symm
      | ignored width width_pos =>
        dsimp only
        rw [Decoder.bind_apply]
        cases htake : Decoder.take width reader with
        | error error => rfl
        | ok field => exact (if_neg row.isRecognized).symm
      | exactly width width_pos value =>
        dsimp only
        rw [Decoder.bind_apply, Decoder.bind_apply, Decoder.get_apply]
        simp only [Except.bind]
        rw [Decoder.bind_apply, Decoder.bind_apply]
        cases htake : Decoder.take width reader with
        | error error => rfl
        | ok field =>
          simp only [Except.bind]
          by_cases hvalue : field.1 = value
          · rw [if_pos hvalue, if_pos hvalue]
            exact (if_neg row.isRecognized).symm
          -- both look-ups return behind the leading bits, where the induction takes over
          · rw [if_neg hvalue, if_neg hvalue]
            exact ih
    · rw [if_neg hnibble, if_neg hnibble]
      exact ih

theorem classify_append (table more : List Row) (reader : BitReader image) :
    classify (table ++ more) reader =
      match classify table reader with
      | .ok (opcode, next) =>
        if opcode.operation = .unrecognized then
          classify more reader
        else
          .ok (opcode, next)
      | .error error => .error error := by
  simp only [classify, Decoder.bind_apply]
  cases Decoder.take 4 reader with
  | error error => rfl
  | ok leading => exact classifyNibble_append leading.1 table more leading.2

/-- Looking up an opcode at any position, in any table whose extensions can be read, finds the first
match, moves on by its opcode and gives the bits that it has passed; where the bits do not suffice,
the image is truncated. Rows that are appended are asked where the table does not know the opcode,
and change nothing else. -/
theorem classify_firstMatch {table : List Row}
    (h : ∀ row ∈ table, row.extension.width ≤ Decoder.maxFieldWidth) (reader : BitReader image) :
    (match firstMatch table reader.bits with
      | .ok opcode => ∃ next, classify table reader = .ok (opcode, next) ∧
          opcode.width ≤ reader.remaining ∧ next.position = reader.position + opcode.width ∧
          opcode.bits.toNat = bitsValue (reader.bits.take opcode.width)
      | .error shortage => classify table reader =
          .error (.decode { offset := image.size, cause := shortage.cause })) ∧
      ∀ more : List Row, classify (table ++ more) reader =
        match classify table reader with
        | .ok (opcode, next) =>
          if opcode.operation = .unrecognized then
            classify more reader
          else
            .ok (opcode, next)
        | .error error => .error error := by
  refine ⟨?_, fun more => classify_append table more reader⟩
  have hscan := Scan.classify_eq_firstMatch table reader.bits
  have hfollows : Decoder.Follows (classify table : Decoder image _) (Scan.classify table) :=
    follows_classify table h
  cases hmatch : firstMatch table reader.bits with
  | error shortage =>
    rw [hmatch] at hscan
    exact hfollows.of_error hscan
  | ok opcode =>
    rw [hmatch] at hscan
    obtain ⟨next, hclassify, hbits⟩ := hfollows.of_ok hscan
    obtain ⟨hle, hopcode⟩ := ofBits_of_firstMatch hmatch
    refine ⟨next, hclassify, ?_, Decoder.position_of_bits hle hbits, ?_⟩
    · rwa [BitReader.length_bits] at hle
    · rw [hopcode]
      exact Nat.mod_eq_of_lt (bitsValue_take_lt reader.bits opcode.width)

/-- In the middle of a byte, the first of two rows for the same leading bits differs in four bits of
extension, and the second one, which has two bits of extension, decides. -/
theorem classify_firstMatch_retry :
    ∃ (table : List Row) (reader next : BitReader #[0x1F, 0x00]),
      (∀ row ∈ table, row.extension.width ≤ Decoder.maxFieldWidth) ∧
        table.map (fun row => (row.nibble, row.extension.width)) = [(15, 4), (15, 2)] ∧
        reader.position = 3 ∧ classify table reader = .ok (⟨.moveAccumulator, 6, 62⟩, next) ∧
        next.position = 9 ∧
        ∀ more, classify (table ++ more) reader = .ok (⟨.moveAccumulator, 6, 62⟩, next) := by
  let table : List Row := [⟨15, .exactly 4 (by decide) 0, .moveImmediateMemory, by decide⟩,
    ⟨15, .exactly 2 (by decide) 2, .moveAccumulator, by decide⟩]
  let reader : BitReader #[0x1F, 0x00] := ⟨3, by decide⟩
  have hwidth : ∀ row ∈ table, row.extension.width ≤ Decoder.maxFieldWidth := by decide
  have hmatch : firstMatch table reader.bits = .ok ⟨.moveAccumulator, 6, 62⟩ := rfl
  obtain ⟨hfirst, happend⟩ := classify_firstMatch hwidth reader
  rw [hmatch] at hfirst
  obtain ⟨next, hclassify, -, hposition, -⟩ := hfirst
  refine ⟨table, reader, next, hwidth, rfl, rfl, hclassify, hposition, fun more => ?_⟩
  rw [happend more, hclassify]
  rfl

end Opcode

end MachineCode
