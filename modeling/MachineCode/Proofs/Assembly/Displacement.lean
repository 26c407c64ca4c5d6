import MachineCode.Proofs.Assembly.Address
import MachineCode.Proofs.Move.Range

/-!
# Displacements in assembly text

The text of an address with a base says three things: a size keyword or none, the base, and a signed
displacement, which is zero where nothing is written. Whatever the three are, they are read back
from the characters of the text. For an address that is decoded, the assembler's rule picks from
them the displacement that the address has. Where there is a size keyword, it is needed: without it,
the rule picks a displacement of another width.

## Main definitions

* `Assembly.readSum` : what is read from the characters of such a text.
* `EffectiveAddress.IsRead` : the addresses that are decoded.

## Main results

* `Assembly.readSum_text` : the text of an address is read back.
* `EffectiveAddress.displacementWidth?_shortest_none` : no size keyword is superfluous.
* `EffectiveAddress.shortest_readSum` : the text of a decoded address keeps its displacement.
-/

namespace MachineCode

open Assembly

namespace EffectiveAddress

/-- The text of a base and a signed displacement, with a size keyword or without one. -/
def sumText (size : Option Width) (base : Base) (n : Int) : String :=
  "[" ++ (sizeText size ++ base.text ++ termText n) ++ "]"

/-- The width of the displacement of an address. -/
def displacementWidth? : EffectiveAddress → Option Width
  | .bare _ => none
  | .offset _ displacement => some displacement.width
  | .direct displacement => some displacement.width

/-- Without its size keyword, a displacement would have another width, or there would be none. -/
theorem displacementWidth?_shortest_none {base : Base} {displacement : Immediate} {w : Width}
    (h : sizeWord? base displacement = some w) :
    (shortest none base displacement.signed).displacementWidth? ≠ some displacement.width := by
  cases displacement with
  | byte v =>
    have hzero : v.toInt = 0 ∧ base ≠ .bp := by
      by_contra hne
      rw [sizeWord?, if_neg hne] at h
      cases h
    rw [Immediate.signed, shortest, if_pos hzero]
    simp [displacementWidth?]
  | word v =>
    have hsmall : -0x80 ≤ v.toInt ∧ v.toInt < 0x80 := by
      by_contra hne
      rw [sizeWord?, if_neg hne] at h
      cases h
    rw [Immediate.signed, shortest, if_pos hsmall]
    split <;> simp [displacementWidth?, Immediate.width]

end EffectiveAddress

namespace Assembly

open EffectiveAddress

/-- The text of an address with a base: words in brackets. -/
def readSum (text : String) : Option Sum :=
  match text.toList with
  | '[' :: rest =>
    if rest.getLast? = some ']' then readSumTokens (readTokens (' ' :: rest.dropLast)) else none
  | _ => none

/-- What the text of an address should say. Direct addresses have no base. -/
def Sum.ofAddress? : EffectiveAddress → Option Sum
  | .bare base => some ⟨none, base, 0⟩
  | .offset base displacement =>
    some ⟨sizeWord? base displacement, base, displacement.signed⟩
  | .direct _ => none

theorem readSum_of_toList {text : String} {inner : List Char} {tokens : List Token}
    (htext : text.toList = '[' :: (inner ++ [']'])) (hinner : ' ' :: inner = spaced tokens) :
    readSum text = readSumTokens tokens := by
  simp only [readSum, htext, List.getLast?_concat, if_true, List.dropLast_concat, hinner,
    readTokens_spaced]

/-- A size, a base and a displacement are read back from their text. -/
theorem readSum_sumText (size : Option Width) (base : Base) (n : Int) :
    readSum (sumText size base n) = some ⟨size, base, n⟩ := by
  have htext : (sumText size base n).toList =
      '[' :: ((sizeText size ++ base.text ++ termText n).toList ++ [']']) := by
    simp only [sumText, String.toList_append]
    rfl
  refine (readSum_of_toList htext ?_).trans (readSumTokens_append size base n)
  rw [spaced_append, spaced_append, Base.spaced_tokens, spaced_displacementTokens,
    List.cons_append, spaced_size]
  simp only [String.toList_append, List.append_assoc]

/-- The text of an address is read back, and that of a direct address has no base. -/
theorem readSum_text (a : EffectiveAddress) : readSum a.text = Sum.ofAddress? a := by
  obtain ⟨inner, htext, hinner⟩ := a.toList_text
  rw [readSum_of_toList htext hinner]
  cases a with
  | bare base => exact readSumTokens_base base
  | offset base displacement =>
    rw [tokens, Sum.ofAddress?]
    by_cases h : sizeWord? base displacement = none ∧ displacement.signed = 0
    · rw [if_pos h, h.1, h.2]
      exact readSumTokens_base base
    · rw [if_neg h]
      exact readSumTokens_append _ base _
  | direct displacement => rfl

end Assembly

/-! ### Decoded addresses -/

namespace Scan

theorem isEncodable_of_effectiveAddress {settings : Settings.Decoder} {mode : DisplacementMode}
    {bits rest : List Bool} {a : EffectiveAddress}
    (h : effectiveAddress settings mode bits = .ok (a, rest)) : a.IsEncodable settings := by
  obtain ⟨base, behind, -, h⟩ := Decoder.bind_eq_ok_iff.1 h
  cases mode with
  | absent =>
    by_cases hdirect : settings.directAddress = true ∧ base = .bp
    · simp only [if_pos hdirect] at h
      obtain ⟨i, last, himmediate, h⟩ := Decoder.bind_eq_ok_iff.1 h
      cases h
      exact ⟨hdirect.1, width_of_immediate himmediate⟩
    · simp only [if_neg hdirect] at h
      cases h
      exact fun htrue hbase => hdirect ⟨htrue, hbase⟩
  | byte =>
    obtain ⟨i, last, -, h⟩ := Decoder.bind_eq_ok_iff.1 h
    cases h
    trivial
  | word =>
    obtain ⟨i, last, -, h⟩ := Decoder.bind_eq_ok_iff.1 h
    cases h
    trivial

end Scan

namespace Decoder

theorem isEncodable_of_effectiveAddressOfNumber {settings : Settings.Decoder} {image : Image}
    {reader next : BitReader image} {number : Int} {a : EffectiveAddress}
    (h : effectiveAddressOfNumber settings number reader = .ok (a, next)) :
    a.IsEncodable settings := by
  cases hmode : DisplacementMode.ofNumber? number with
  | none =>
    simp only [effectiveAddressOfNumber, hmode] at h
    obtain ⟨base, last, -, hthrow⟩ := bind_eq_ok_iff.1 h
    cases hthrow
  | some mode =>
    simp only [effectiveAddressOfNumber, hmode] at h
    cases hscan : Scan.effectiveAddress settings mode reader.bits with
    | error shortage =>
      rw [(follows_effectiveAddress settings mode).of_error hscan] at h
      cases h
    | ok p =>
      obtain ⟨last, hlast, -⟩ := (follows_effectiveAddress settings mode).of_ok hscan
      rw [hlast] at h
      cases h
      exact Scan.isEncodable_of_effectiveAddress hscan

end Decoder

namespace EffectiveAddress

variable {settings : Settings.Decoder} {a : EffectiveAddress}

/-- The addresses that are decoded, as fields of their own or as operands of instructions. -/
def IsRead (settings : Settings.Decoder) (a : EffectiveAddress) : Prop :=
  (∃ (image : Image) (reader next : BitReader image) (mode : Int),
      Decoder.effectiveAddressOfNumber settings mode reader = .ok (a, next)) ∨
    ∃ (image : Image) (reader next : BitReader image) (address : Int) (i : Instruction),
      Decoder.instructionAt settings address reader = .ok (i, next) ∧
        (i.destination = .memory a ∨ i.source = .memory a)

theorem IsRead.isEncodable (h : a.IsRead settings) : a.IsEncodable settings := by
  rcases h with ⟨image, reader, next, number, hread⟩ | ⟨image, reader, next, address, i, hread, ha⟩
  · exact Decoder.isEncodable_of_effectiveAddressOfNumber hread
  · exact (Decoder.wellFormed_of_instructionAt hread).isEncodable ha

/-- The text of a decoded address with a base keeps its displacement. From the size keyword, the
base and the displacement that are read from the text, the assembler picks the address again. And
where there is a size keyword, the text without it says the same otherwise, but the assembler picks
a displacement of another width for it. -/
theorem shortest_readSum (hdirect : settings.directAddress = true) (h : a.IsRead settings)
    (hbase : ∀ displacement, a ≠ .direct displacement) :
    (∃ size base n, readSum a.text = some ⟨size, base, n⟩ ∧ shortest size base n = a) ∧
      ∀ base displacement w, a = .offset base displacement →
        sizeWord? base displacement = some w →
        a.text = sumText (some w) base displacement.signed ∧
          readSum (sumText none base displacement.signed) =
            some ⟨none, base, displacement.signed⟩ ∧
          (shortest none base displacement.signed).displacementWidth? ≠
            a.displacementWidth? := by
  constructor
  · rw [readSum_text]
    cases a with
    | bare base =>
      have hbp : base ≠ .bp := h.isEncodable hdirect
      exact ⟨none, base, 0, rfl, by simp [shortest, hbp]⟩
    | offset base displacement =>
      exact ⟨_, base, _, rfl, shortest_sizeWord? base displacement⟩
    | direct displacement => exact absurd rfl (hbase displacement)
  · rintro base displacement w rfl hsize
    refine ⟨?_, readSum_sumText none base _, displacementWidth?_shortest_none hsize⟩
    have hwritten : ¬ (sizeWord? base displacement = none ∧ displacement.signed = 0) := by
      rw [hsize]
      simp
    rw [text, offsetText, if_neg hwritten, hsize, sumText]

/-- The least displacement that needs its keyword: in `[word bx + si - 128]`, a byte would do. -/
theorem shortest_readSum_word :
    IsRead {} (.offset .bxSi (.word 0xFF80)) ∧
      (∃ size base n,
        readSum (offset .bxSi (.word 0xFF80)).text = some ⟨size, base, n⟩ ∧
          shortest size base n = .offset .bxSi (.word 0xFF80)) ∧
      sizeWord? .bxSi (.word 0xFF80) = some .word ∧
      (offset .bxSi (.word 0xFF80)).text = sumText (some .word) .bxSi (-128) ∧
      readSum (sumText none .bxSi (-128)) = some ⟨none, .bxSi, -128⟩ ∧
      (shortest none .bxSi (-128)).displacementWidth? ≠
        (offset .bxSi (.word 0xFF80)).displacementWidth? := by
  let i : Instruction := ⟨0, 4, .moveRegisterMemory, .register ⟨.word, 0⟩,
    .memory (.offset .bxSi (.word 0xFF80)), by decide, by decide, rfl⟩
  obtain ⟨next, hi, -⟩ :=
    @Decoder.instructionAt_start_of_move #[0x8B, 0x80, 0x80, 0xFF] {} i rfl
  have hread : IsRead {} (.offset .bxSi (.word 0xFF80)) :=
    .inr ⟨_, _, next, _, i, hi, .inr rfl⟩
  have hsize : sizeWord? .bxSi (.word 0xFF80) = some .word := rfl
  obtain ⟨hpicked, hneeded⟩ := shortest_readSum rfl hread fun _ => EffectiveAddress.noConfusion
  exact ⟨hread, hpicked, hsize, hneeded .bxSi (.word 0xFF80) .word rfl hsize⟩

end EffectiveAddress

end MachineCode
