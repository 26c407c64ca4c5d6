import MachineCode.Proofs.Assembly.Token
import MachineCode.Proofs.Move.Encoding

/-!
# Addresses in assembly text

An address is written as a base and a signed displacement, with a size keyword where the assembler
would otherwise pick another displacement. This file states how an assembler reads such a text:
which words make up a base and a displacement, and which encoding is picked for them. Every address
that can be encoded is the one that is picked for its text.

## Main definitions

* `EffectiveAddress.tokens` : the words of an address.
* `EffectiveAddress.shortest` : the encoding that an assembler picks.
* `Assembly.Sum` : what the words of an address with a base say.
* `Assembly.readAddress` : the address that some words denote.

## Main results

* `EffectiveAddress.shortest_sizeWord?` : the size keyword makes the assembler pick the displacement
  that an address has.
* `Assembly.readAddress_tokens` : an address is read back from its words.
-/

namespace MachineCode

open Assembly

/-- The words of a base. -/
def Base.tokens (base : Base) : List Token :=
  (base.registers.map Token.register).intersperse .plus

theorem Base.spaced_tokens (base : Base) : spaced base.tokens = ' ' :: base.text.toList := by
  cases base <;> decide

namespace EffectiveAddress

/-- The words of a displacement: a sign and a number. -/
def displacementTokens (n : Int) : List Token :=
  [if n < 0 then .minus else .plus, .number n.natAbs]

/-- The words of an address. -/
def tokens : EffectiveAddress → List Token
  | .bare base => base.tokens
  | .offset base displacement =>
    if sizeWord? base displacement = none ∧ displacement.signed = 0 then
      base.tokens
    else
      (sizeWord? base displacement).toList.map .size ++
        (base.tokens ++ displacementTokens displacement.signed)
  | .direct displacement => [.number displacement.value]

theorem spaced_displacementTokens (n : Int) :
    spaced (displacementTokens n) = (termText n).toList := by
  have hdigits := toList_decimal n.natAbs
  rw [displacementTokens, termText]
  rw [String.toList_append, hdigits]
  by_cases h : n < 0
  · rw [if_pos h, if_pos h]
    simp [spaced, Token.chars]
  · rw [if_neg h, if_neg h]
    simp [spaced, Token.chars]

theorem spaced_size (size : Option Width) (rest : List Char) :
    spaced (size.toList.map .size) ++ ' ' :: rest = ' ' :: ((sizeText size).toList ++ rest) := by
  rcases size with _ | _ | _ <;> rfl

/-- An address is written as its words in brackets, without the space in front of the first one. -/
theorem toList_text (a : EffectiveAddress) :
    ∃ inner, a.text.toList = '[' :: (inner ++ [']']) ∧ ' ' :: inner = spaced a.tokens := by
  cases a with
  | bare base =>
    refine ⟨base.text.toList, ?_, base.spaced_tokens.symm⟩
    simp only [text, String.toList_append]
    rfl
  | offset base displacement =>
    refine ⟨(offsetText base displacement).toList, ?_, ?_⟩
    · simp only [text, String.toList_append]
      rfl
    · rw [offsetText, tokens]
      by_cases h : sizeWord? base displacement = none ∧ displacement.signed = 0
      · rw [if_pos h, if_pos h, Base.spaced_tokens]
      · rw [if_neg h, if_neg h, spaced_append, spaced_append, Base.spaced_tokens,
          spaced_displacementTokens, List.cons_append, spaced_size]
        simp only [String.toList_append, List.append_assoc]
  | direct displacement =>
    refine ⟨displacement.text.toList, ?_, ?_⟩
    · simp only [text, String.toList_append]
      rfl
    · rw [Immediate.text, toList_decimal]
      simp [tokens, spaced, Token.chars]

/-- The encoding that an assembler picks for a base and a signed displacement: the size that is
named, or else the shortest one that holds the displacement. There is no encoding of `bp` without a
displacement. -/
def shortest (size : Option Width) (base : Base) (n : Int) : EffectiveAddress :=
  match size with
  | some .byte => .offset base (.byte (.ofInt 8 n))
  | some .word => .offset base (.word (.ofInt 16 n))
  | none =>
    if n = 0 ∧ base ≠ .bp then .bare base
    else if -0x80 ≤ n ∧ n < 0x80 then .offset base (.byte (.ofInt 8 n))
    else .offset base (.word (.ofInt 16 n))

/-- A size keyword stands exactly where the assembler would pick another displacement. -/
theorem shortest_sizeWord? (base : Base) (displacement : Immediate) :
    shortest (sizeWord? base displacement) base displacement.signed =
      .offset base displacement := by
  cases displacement with
  | byte v =>
    have hmin : -0x80 ≤ v.toInt := BitVec.le_toInt v
    have hmax : v.toInt < 0x80 := BitVec.toInt_lt
    rw [sizeWord?, Immediate.signed]
    by_cases h : v.toInt = 0 ∧ base ≠ .bp
    · rw [if_pos h, shortest, BitVec.ofInt_toInt]
    · rw [if_neg h, shortest, if_neg h, if_pos ⟨hmin, hmax⟩, BitVec.ofInt_toInt]
  | word v =>
    rw [sizeWord?, Immediate.signed]
    by_cases h : -0x80 ≤ v.toInt ∧ v.toInt < 0x80
    · rw [if_pos h, shortest, BitVec.ofInt_toInt]
    · have hzero : ¬ (v.toInt = 0 ∧ base ≠ .bp) := by
        rintro ⟨hzero, -⟩
        omega
      rw [if_neg h, shortest, if_neg hzero, if_neg h, BitVec.ofInt_toInt]

end EffectiveAddress

namespace Assembly

open EffectiveAddress

/-- The base that is the sum of some registers. -/
def baseOf? (registers : List Register) : Option Base :=
  Base.all.toList.find? fun base => base.registers == registers

/-- The base at the front of some words, and the words behind it. -/
def readBase : List Token → Option (Base × List Token)
  | .register r :: .plus :: .register s :: rest => (baseOf? [r, s]).map (·, rest)
  | .register r :: rest => (baseOf? [r]).map (·, rest)
  | _ => none

/-- The displacement that some words denote. -/
def readDisplacement : List Token → Option Int
  | [] => some 0
  | [.plus, .number n] => some n
  | [.minus, .number n] => some (-n)
  | _ => none

/-- What the words of an address with a base say. -/
structure Sum where
  /-- The size keyword, if there is one. -/
  size : Option Width
  base : Base
  displacement : Int
  deriving DecidableEq

/-- The words behind a size keyword are a base and a signed displacement. -/
def readTerms (size : Option Width) (tokens : List Token) : Option Sum := do
  let (base, rest) ← readBase tokens
  let n ← readDisplacement rest
  return ⟨size, base, n⟩

/-- The words of an address with a base. -/
def readSumTokens : List Token → Option Sum
  | .size w :: rest => readTerms (some w) rest
  | tokens => readTerms none tokens

/-- The address that the words behind a size keyword denote. -/
def readBased (size : Option Width) (tokens : List Token) : Option EffectiveAddress := do
  let (base, rest) ← readBase tokens
  let n ← readDisplacement rest
  return shortest size base n

/-- The address that some words denote. -/
def readAddress : List Token → Option EffectiveAddress
  | [.number n] => some (.direct (.word (.ofNat 16 n)))
  | .size w :: rest => readBased (some w) rest
  | tokens => readBased none tokens

theorem readBase_tokens (base : Base) : readBase base.tokens = some (base, []) := by
  cases base <;> decide

theorem readBase_tokens_append (base : Base) (n : Int) :
    readBase (base.tokens ++ displacementTokens n) = some (base, displacementTokens n) := by
  rw [displacementTokens]
  by_cases h : n < 0
  · rw [if_pos h]
    cases base <;> rfl
  · rw [if_neg h]
    cases base <;> rfl

theorem readDisplacement_tokens (n : Int) : readDisplacement (displacementTokens n) = some n := by
  rw [displacementTokens]
  by_cases h : n < 0
  · rw [if_pos h, readDisplacement]
    exact congrArg some (by omega)
  · rw [if_neg h, readDisplacement]
    exact congrArg some (by omega)

theorem readSumTokens_append (size : Option Width) (base : Base) (n : Int) :
    readSumTokens (size.toList.map .size ++ (base.tokens ++ displacementTokens n)) =
      some ⟨size, base, n⟩ := by
  have hread : readSumTokens (size.toList.map .size ++ (base.tokens ++ displacementTokens n)) =
      readTerms size (base.tokens ++ displacementTokens n) := by
    cases size with
    | some w => rfl
    | none => cases base <;> rfl
  rw [hread, readTerms, readBase_tokens_append]
  simp [readDisplacement_tokens]

theorem readSumTokens_base (base : Base) : readSumTokens base.tokens = some ⟨none, base, 0⟩ := by
  have hread : readSumTokens base.tokens = readTerms none base.tokens := by
    cases base <;> rfl
  rw [hread, readTerms, readBase_tokens]
  rfl

/-- The address that is picked for what the words say. -/
theorem readBased_of_readTerms {size : Option Width} {tokens : List Token} {s : Sum}
    (h : readTerms size tokens = some s) :
    readBased size tokens = some (shortest s.size s.base s.displacement) := by
  obtain ⟨⟨base, rest⟩, hbase, h⟩ := Option.bind_eq_some_iff.1 h
  obtain ⟨n, hn, h⟩ := Option.bind_eq_some_iff.1 h
  cases h
  exact Option.bind_eq_some_iff.2 ⟨(base, rest), hbase, Option.bind_eq_some_iff.2 ⟨n, hn, rfl⟩⟩

/-- Words that say a base and a displacement denote the address that is picked for them. -/
theorem readAddress_of_readSumTokens {tokens : List Token} {s : Sum}
    (h : readSumTokens tokens = some s) :
    readAddress tokens = some (shortest s.size s.base s.displacement) := by
  rw [readSumTokens.eq_def] at h
  split at h
  · exact readBased_of_readTerms h
  · rename_i hsize
    rw [readAddress.eq_def]
    split
    · cases h
    · exact absurd rfl (hsize _ _)
    · exact readBased_of_readTerms h

/-- An address that can be encoded is read back from its words. -/
theorem readAddress_tokens {settings : Settings.Decoder} (hdirect : settings.directAddress = true)
    {a : EffectiveAddress} (h : a.IsEncodable settings) : readAddress a.tokens = some a := by
  cases a with
  | bare base =>
    have hbp : base ≠ .bp := h hdirect
    refine (readAddress_of_readSumTokens (readSumTokens_base base)).trans ?_
    rw [shortest, if_pos ⟨rfl, hbp⟩]
  | offset base displacement =>
    rw [tokens, ← shortest_sizeWord? base displacement]
    by_cases hbare : sizeWord? base displacement = none ∧ displacement.signed = 0
    · rw [if_pos hbare, hbare.1, hbare.2]
      exact readAddress_of_readSumTokens (readSumTokens_base base)
    · rw [if_neg hbare]
      exact readAddress_of_readSumTokens (readSumTokens_append _ base _)
  | direct displacement =>
    cases displacement with
    | byte v => cases h.2
    | word v =>
      simp only [tokens, Immediate.value, readAddress, BitVec.ofNat_toNat, BitVec.setWidth_eq]

end Assembly

end MachineCode
