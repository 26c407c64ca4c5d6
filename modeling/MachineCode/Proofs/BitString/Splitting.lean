import Mathlib.Data.List.SplitLengths
import MachineCode.Proofs.BitReader.Rounds
import MachineCode.Proofs.BitString.Totality

/-!
# Splitting a read

The bits that are left at a position are one string, wherever the borders of bytes lie in it. Fields
that are read one behind the other are consecutive parts of this string, each with the number of its
own bits. So the numbers of the fields, put together again, are the number of the whole part, and
how that part is split into fields makes no difference. The only thing that can go wrong is that the
string ends inside a field, and then it is the first field that does not fit.

## Main definitions

* `Decoder.takeAll` : fields of some widths, one behind the other.
* `Decoder.joined` : the numbers of fields, put together.

## Main results

* `Decoder.takeAll_eq_ok_iff`, `Decoder.takeAll_of_lt` : the outcomes of reading fields.
* `Decoder.takeAll_split` : reading fields is exact, and does not depend on how they are split.
-/

namespace MachineCode

namespace Decoder

open Image

variable {image : Image}

/-- Reads fields of some widths, one behind the other, as numbers. -/
def takeAll : List Nat → Decoder image (List Nat)
  | [] => return []
  | width :: widths => do
    let field ← take width
    return field.toNat :: (← takeAll widths)

/-- The number that is put together from numbers of some widths, the first one in front. -/
def joined (widths values : List Nat) : Nat :=
  (widths.zip values).foldl (fun n field => n * 2 ^ field.1 + field.2) 0

theorem getElem?_splitLengths {α : Type*} (lengths : List Nat) (l : List α) (k : Nat)
    (hk : k < lengths.length) :
    (lengths.splitLengths l)[k]? = some ((l.drop (lengths.take k).sum).take lengths[k]) := by
  induction lengths generalizing l k with
  | nil => cases hk
  | cons length lengths ih =>
    rw [List.splitLengths_cons]
    cases k with
    | zero => rfl
    | succ k =>
      rw [List.getElem?_cons_succ, ih (l.drop length) k (Nat.lt_of_succ_lt_succ hk),
        List.take_succ_cons, List.sum_cons, List.drop_drop, List.getElem_cons_succ]

theorem takeAll_of_le {widths : List Nat}
    (hwidths : ∀ width ∈ widths, 0 < width ∧ width ≤ maxFieldWidth) {reader : BitReader image}
    (h : widths.sum ≤ reader.bits.length) :
    ∃ next : BitReader image,
      takeAll widths reader = .ok ((widths.splitLengths reader.bits).map bitsValue, next) ∧
        next.bits = reader.bits.drop widths.sum := by
  induction widths generalizing reader with
  | nil => exact ⟨reader, rfl, rfl⟩
  | cons width widths ih =>
    obtain ⟨⟨hpos, hmax⟩, hrest⟩ := List.forall_mem_cons.1 hwidths
    rw [List.sum_cons] at h
    have hfirst : width ≤ reader.bits.length := by omega
    obtain ⟨middle, htake, hmiddle⟩ := take_of_le hpos hmax hfirst
    have hfits : widths.sum ≤ middle.bits.length := by
      rw [hmiddle, List.length_drop]
      omega
    obtain ⟨next, hall, hnext⟩ := ih hrest hfits
    refine ⟨next, ?_, by rw [hnext, hmiddle, List.drop_drop, List.sum_cons]⟩
    have hvalue : (BitVec.ofNat width (bitsValue (reader.bits.take width))).toNat =
        bitsValue (reader.bits.take width) :=
      Nat.mod_eq_of_lt (bitsValue_take_lt reader.bits width)
    rw [takeAll, bind_of_ok htake, bind_of_ok hall, pure_apply, hvalue, List.splitLengths_cons,
      List.map_cons, hmiddle]

/-- Where the bits that are left end inside a field, the first such field is truncated. -/
theorem takeAll_of_lt {widths : List Nat}
    (hwidths : ∀ width ∈ widths, 0 < width ∧ width ≤ maxFieldWidth) {reader : BitReader image}
    (h : reader.bits.length < widths.sum) :
    ∃ front width back, widths = front ++ width :: back ∧ front.sum ≤ reader.bits.length ∧
      reader.bits.length < front.sum + width ∧
      takeAll widths reader = .error (.decode
        { offset := image.size
          cause := .truncated width (reader.bits.length - front.sum : Nat) }) := by
  induction widths generalizing reader with
  | nil => cases h
  | cons width widths ih =>
    obtain ⟨⟨hpos, hmax⟩, hrest⟩ := List.forall_mem_cons.1 hwidths
    rw [List.sum_cons] at h
    -- if the first field fits, the one that does not is behind it, with fewer bits left
    by_cases hfits : width ≤ reader.bits.length
    · obtain ⟨middle, htake, hmiddle⟩ := take_of_le hpos hmax hfits
      have hlength : middle.bits.length = reader.bits.length - width := by
        rw [hmiddle, List.length_drop]
      have hmore : middle.bits.length < widths.sum := by omega
      obtain ⟨front, last, back, rfl, hle, hlt, herror⟩ := ih hrest hmore
      refine ⟨width :: front, last, back, rfl, ?_, ?_, ?_⟩
      · rw [List.sum_cons]
        omega
      · rw [List.sum_cons]
        omega
      · rw [takeAll, bind_of_ok htake, bind_of_error herror, hlength, List.sum_cons, Nat.sub_sub]
    · refine ⟨[], width, widths, rfl, Nat.zero_le _, ?_, ?_⟩
      · rw [List.sum_nil]
        omega
      · rw [takeAll, bind_of_error (take_of_lt hmax (by omega))]
        rfl

/-- Fields are read exactly if they fit. -/
theorem takeAll_eq_ok_iff {widths : List Nat}
    (hwidths : ∀ width ∈ widths, 0 < width ∧ width ≤ maxFieldWidth) {reader next : BitReader image}
    {values : List Nat} :
    takeAll widths reader = .ok (values, next) ↔ widths.sum ≤ reader.bits.length ∧
      values = (widths.splitLengths reader.bits).map bitsValue ∧
      next.position = reader.position + widths.sum := by
  by_cases hle : widths.sum ≤ reader.bits.length
  · obtain ⟨last, hlast, hbits⟩ := takeAll_of_le hwidths hle
    have hposition := position_of_bits hle hbits
    constructor
    · intro h
      rw [hlast] at h
      cases h
      exact ⟨hle, rfl, hposition⟩
    · rintro ⟨-, rfl, hnext⟩
      rw [hlast, BitReader.ext (hnext.trans hposition.symm)]
  · obtain ⟨_, _, _, -, -, -, herror⟩ := takeAll_of_lt hwidths (Nat.lt_of_not_le hle)
    constructor
    · intro h
      rw [herror] at h
      cases h
    · rintro ⟨hfits, -, -⟩
      exact absurd hfits hle

/-- Numbers of consecutive parts, put together behind a number, are that number with the number of
all the parts behind it. -/
theorem foldl_splitLengths (widths : List Nat) (bits : List Bool) (n : Nat)
    (h : widths.sum ≤ bits.length) :
    (widths.zip ((widths.splitLengths bits).map bitsValue)).foldl
        (fun n field => n * 2 ^ field.1 + field.2) n =
      n * 2 ^ widths.sum + bitsValue (bits.take widths.sum) := by
  induction widths generalizing bits n with
  | nil => simp [bitsValue]
  | cons width widths ih =>
    rw [List.sum_cons] at h
    have hrest : widths.sum ≤ (bits.drop width).length := by
      rw [List.length_drop]
      omega
    rw [List.splitLengths_cons, List.map_cons, List.zip_cons_cons, List.foldl_cons, ih _ _ hrest,
      List.sum_cons, bitsValue_take_add _ _ _ h, Nat.add_mul, Nat.mul_assoc, ← Nat.pow_add,
      Nat.add_assoc]

theorem joined_splitLengths {widths : List Nat} {bits : List Bool}
    (h : widths.sum ≤ bits.length) :
    joined widths ((widths.splitLengths bits).map bitsValue) =
      bitsValue (bits.take widths.sum) := by
  rw [joined, foldl_splitLengths widths bits 0 h, Nat.zero_mul, Nat.zero_add]

/-- Numbers of some widths are those of the fields between a position and a later one. -/
structure IsExact (reader : BitReader image) (widths values : List Nat)
    (next : BitReader image) : Prop where
  length_eq : values.length = widths.length
  /-- A number is that of its own bits, which start behind those of the numbers in front of it. -/
  value_eq : ∀ k (hk : k < widths.length), values[k]? =
    some (bitsValue ((image.bits.drop (reader.position + (widths.take k).sum)).take widths[k]))
  position_eq : next.position = reader.position + widths.sum
  /-- The later position is one of the image. -/
  place : BitReader.atByte? image next.byteIndex next.bitOffset = some next
  /-- At the end of the image no byte has been begun. -/
  place_of_atEnd : next.atEnd = true → next.byteIndex = image.size ∧ next.bitOffset = 0
  /-- Put together, the numbers are the number of all the bits between the positions. -/
  joined_eq : joined widths values =
    bitsValue ((image.bits.drop reader.position).take widths.sum)
  joined_lt : joined widths values < 2 ^ widths.sum

theorem isExact_of_position {widths : List Nat} {reader next : BitReader image}
    (h : widths.sum ≤ reader.bits.length) (hnext : next.position = reader.position + widths.sum) :
    IsExact reader widths ((widths.splitLengths reader.bits).map bitsValue) next := by
  have hjoined := joined_splitLengths h
  constructor
  case length_eq => rw [List.length_map, List.length_splitLengths]
  case value_eq =>
    intro k hk
    rw [List.getElem?_map, getElem?_splitLengths widths _ k hk, Option.map_some, BitReader.bits,
      List.drop_drop]
  case position_eq => exact hnext
  case place => exact next.atByte?_self
  case place_of_atEnd =>
    intro hend
    have hplace := next.position_add_remaining
    rw [beq_iff_eq.1 hend, Nat.add_zero, bitSize] at hplace
    simp only [BitReader.byteIndex, BitReader.bitOffset]
    omega
  case joined_eq => exact hjoined
  case joined_lt =>
    rw [hjoined]
    exact bitsValue_take_lt _ _

/-- Reading fields of admissible widths from any position. It succeeds exactly if the widths are not
more together than the bits that are left, and then it is exact. Other widths with the same sum lead
to the same position and, put together, to the same number. Otherwise it is the first field that
does not fit which is truncated. Within a single read that fits, the rounds stay within the
image. -/
theorem takeAll_split {widths : List Nat}
    (hwidths : ∀ width ∈ widths, 0 < width ∧ width ≤ maxFieldWidth) (reader : BitReader image) :
    ((∃ values next, takeAll widths reader = .ok (values, next)) ↔
        widths.sum ≤ reader.remaining) ∧
      (∀ values next, takeAll widths reader = .ok (values, next) →
        IsExact reader widths values next) ∧
      (∀ others : List Nat, (∀ width ∈ others, 0 < width ∧ width ≤ maxFieldWidth) →
        others.sum = widths.sum →
        ∀ values next, takeAll widths reader = .ok (values, next) →
          ∃ again, takeAll others reader = .ok (again, next) ∧
            joined others again = joined widths values) ∧
      (reader.remaining < widths.sum →
        ∃ front width back, widths = front ++ width :: back ∧ front.sum ≤ reader.remaining ∧
          reader.remaining < front.sum + width ∧
          takeAll widths reader = .error (.decode
            { offset := image.size
              cause := .truncated width (reader.remaining - front.sum : Nat) })) ∧
      ∀ width, 0 < width → width ≤ maxFieldWidth → width ≤ reader.remaining →
        reader.read.extend? image width =
            (BitReader.Partial.rounds image reader.read width).foldlM
              (fun _ round => round.next? image) reader.read ∧
          BitReader.Partial.RunsWithin image reader.read width := by
  rw [← BitReader.length_bits]
  refine ⟨⟨fun ⟨_, _, hall⟩ => ((takeAll_eq_ok_iff hwidths).1 hall).1, fun hle => ?_⟩,
    fun values next hall => ?_, fun others hothers hsum values next hall => ?_,
    takeAll_of_lt hwidths, fun width _ _ hle =>
      ⟨BitReader.Partial.extend?_eq_foldlM_rounds _ _, BitReader.Partial.runsWithin _ _ ?_⟩⟩
  · obtain ⟨next, hall, -⟩ := takeAll_of_le hwidths hle
    exact ⟨_, next, hall⟩
  · obtain ⟨hle, rfl, hposition⟩ := (takeAll_eq_ok_iff hwidths).1 hall
    exact isExact_of_position hle hposition
  · obtain ⟨hle, rfl, hposition⟩ := (takeAll_eq_ok_iff hwidths).1 hall
    rw [← hsum] at hle hposition
    refine ⟨_, (takeAll_eq_ok_iff hothers).2 ⟨hle, rfl, hposition⟩, ?_⟩
    rw [joined_splitLengths hle, joined_splitLengths (hsum ▸ hle), hsum]
  · have := reader.position_add_remaining
    rw [BitReader.length_bits] at hle
    rw [BitReader.position_read]
    omega

/-- From the middle of a byte, twelve bits are read as fields of three, eight and one, the second of
which crosses into the next byte, and as one field of twelve. Five bits and a word do not fit. -/
theorem takeAll_split_across_bytes :
    ∃ (reader next : BitReader #[0x89, 0xD8]) (values : List Nat),
      (∀ width ∈ [3, 8, 1], 0 < width ∧ width ≤ maxFieldWidth) ∧
        (∀ width ∈ [5, 16], 0 < width ∧ width ≤ maxFieldWidth) ∧ reader.position = 4 ∧
        takeAll [3, 8, 1] reader = .ok (values, next) ∧ values[0]? = some 4 ∧
        values[1]? = some 0xEC ∧ values[2]? = some 0 ∧ joined [3, 8, 1] values = 0x9D8 ∧
        next.byteIndex = 2 ∧ next.bitOffset = 0 ∧
        (∃ again, takeAll [12] reader = .ok (again, next) ∧ joined [12] again = 0x9D8) ∧
        takeAll [5, 16] reader =
          .error (.decode { offset := (2 : Nat), cause := .truncated (16 : Nat) (7 : Nat) }) := by
  let reader : BitReader #[0x89, 0xD8] := ⟨4, by decide⟩
  have hwidths : ∀ width ∈ [3, 8, 1], 0 < width ∧ width ≤ maxFieldWidth := by decide
  have hothers : ∀ width ∈ [5, 16], 0 < width ∧ width ≤ maxFieldWidth := by decide
  obtain ⟨hiff, hexact, hagain, -, -⟩ := takeAll_split hwidths reader
  obtain ⟨values, next, hall⟩ := hiff.2 (by decide)
  have exact := hexact values next hall
  have hjoined : joined [3, 8, 1] values = 0x9D8 := exact.joined_eq.trans (by decide)
  have hend : next.atEnd = true := by
    have := exact.position_eq
    rw [BitReader.atEnd, BitReader.remaining, this]
    rfl
  obtain ⟨again, htwelve, hsame⟩ := hagain [12] (by decide) (by decide) values next hall
  obtain ⟨front, width, back, heq, hle, hlt, herror⟩ :=
    (takeAll_split hothers reader).2.2.2.1 (by decide)
  refine ⟨reader, next, values, hwidths, hothers, rfl, hall,
    (exact.value_eq 0 (by decide)).trans (by decide),
    (exact.value_eq 1 (by decide)).trans (by decide),
    (exact.value_eq 2 (by decide)).trans (by decide), hjoined, (exact.place_of_atEnd hend).1,
    (exact.place_of_atEnd hend).2, ⟨again, htwelve, hsame.trans hjoined⟩, ?_⟩
  rw [herror]
  rcases List.cons_eq_append_iff.1 heq with ⟨rfl, hcons⟩ | ⟨more, rfl, hrest⟩
  · obtain ⟨rfl, -⟩ := List.cons.inj hcons
    exact absurd hlt (by decide)
  · rcases List.cons_eq_append_iff.1 hrest with ⟨rfl, hcons⟩ | ⟨_, rfl, hnil⟩
    · obtain ⟨rfl, -⟩ := List.cons.inj hcons
      rfl
    · exact absurd hnil (by simp)

end Decoder

end MachineCode
