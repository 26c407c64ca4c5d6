import MachineCode.Instruction.Decode
import MachineCode.Proofs.BitReader.Exact

/-!
# Reading a string of bits

A decoder reads an image from a position on, but all that it learns of the image are the bits that
are left there. This file describes the fields of an instruction as scans: computations that read a
string of bits from its front and know neither the image nor the position. Every field decoder
follows its scan. In particular none of the checks on the way from bits to registers, literals and
positions ever fails.

## Main definitions

* `Scan` : a computation that reads a string of bits from its front.
* `Decoder.Follows` : a decoder does to the bits that are left what a scan does.

## Main results

* `Decoder.follows_take` : reading a field follows the scan of its bits.
* `Decoder.follows_locationOfNumber`, `Opcode.follows_classify` : so do the operand that a mode
  selects, and the look-up of an opcode in a table.
-/

namespace MachineCode

/-- A string of bits ends inside a field. -/
structure Shortage where
  /-- The number of bits in the field. -/
  requested : Nat
  /-- The number of bits that are left for it. -/
  available : Nat
  available_lt : available < requested
  deriving DecidableEq, Repr

/-- A shortage is the truncation of an image. -/
def Shortage.cause (shortage : Shortage) : Fault.Cause :=
  .truncated shortage.requested shortage.available

/-- A computation that reads a string of bits from its front. -/
abbrev Scan := StateT (List Bool) (Except Shortage)

namespace Scan

/-- The number formed by the next `count` bits. -/
def take (count : Nat) : Scan (BitVec count) := fun bits =>
  if h : count ≤ bits.length then
    .ok (BitVec.ofNat count (Image.bitsValue (bits.take count)), bits.drop count)
  else
    .error ⟨count, bits.length, by omega⟩

/-- The next bit as a flag. -/
def flag : Scan Bool := do
  return (← take 1) == 1

/-- The number of a register of a known width. -/
def register (width : Width) : Scan Register := do
  return ⟨width, ← take 3⟩

/-- The number of a base register combination. -/
def base : Scan Base := do
  return .ofField (← take 3)

/-- A literal. The low byte of a word comes first. -/
def immediate (width : Width) : Scan Immediate := do
  let low ← take 8
  match width with
  | .byte => return .byte low
  | .word => do
    let high ← take 8
    return .word (high ++ low)

theorem width_of_immediate {width : Width} {bits : List Bool} {result : Immediate × List Bool}
    (h : immediate width bits = .ok result) : result.1.width = width := by
  obtain ⟨low, rest, _, h⟩ := Decoder.bind_eq_ok_iff.1 h
  cases width with
  | byte =>
    cases h
    rfl
  | word =>
    obtain ⟨high, _, _, h⟩ := Decoder.bind_eq_ok_iff.1 h
    cases h
    rfl

/-- A memory operand with the displacement that the mode selects. -/
def effectiveAddress (settings : Settings.Decoder) (displacement : DisplacementMode) :
    Scan EffectiveAddress := do
  let base ← base
  match displacement with
  | .absent =>
    if settings.directAddress = true ∧ base = .bp then
      return .direct (← immediate .word)
    else
      return .bare base
  | .byte => return .offset base (← immediate .byte)
  | .word => return .offset base (← immediate .word)

/-- The operand that a mode selects. -/
def location (settings : Settings.Decoder) (mode : Mode) (width : Width) : Scan Operand :=
  match mode with
  | .register => return .register (← register width)
  | .memory displacement => return .memory (← effectiveAddress settings displacement)

/-- The fields `d w mod reg r/m` and the displacement, if any. -/
def registerMemoryOperands (settings : Settings.Decoder) : Scan Operands := do
  let registerIsDestination ← flag
  let width := Width.ofFlag (← flag)
  let mode ← take 2
  let register ← register width
  let location ← location settings (.ofField mode) width
  if registerIsDestination then
    return ⟨.register register, location⟩
  else
    return ⟨location, .register register⟩

/-- The fields `w reg` and a literal of that width. -/
def immediateRegisterOperands : Scan Operands := do
  let width := Width.ofFlag (← flag)
  let register ← register width
  let immediate ← immediate width
  return ⟨.register register, .immediate immediate⟩

/-- The fields `mod ext r/m` and the displacement, if any, of which nothing is kept. -/
def groupLayout (settings : Settings.Decoder) : Scan Unit := do
  let mode ← take 2
  let _ ← take 3
  let _ ← location settings (.ofField mode) .word

/-- The family of an opcode whose leading bits have been read, by the first of the rows that
matches. -/
def classifyNibble (nibble : BitVec 4) : List Opcode.Row → Scan Opcode.Classification
  | [] => return ⟨.unrecognized, 4, nibble⟩
  | row :: rows =>
    if row.nibble = nibble then
      match row.extension with
      | .absent => return ⟨row.operation, 4, nibble⟩
      | .ignored width _ => do
        let bits ← take width
        return ⟨row.operation, 4 + width, nibble ++ bits⟩
      | .exactly width _ value => do
        let behindNibble ← get
        let bits ← take width
        if bits = value then
          return ⟨row.operation, 4 + width, nibble ++ bits⟩
        else
          set behindNibble
          classifyNibble nibble rows
    else
      classifyNibble nibble rows

theorem classifyNibble_of_forall_ne {nibble : BitVec 4} {rows : List Opcode.Row}
    (h : ∀ row ∈ rows, row.nibble ≠ nibble) :
    classifyNibble nibble rows = pure ⟨.unrecognized, 4, nibble⟩ := by
  induction rows with
  | nil => rfl
  | cons row rows ih =>
    rw [classifyNibble, if_neg (h row List.mem_cons_self)]
    exact ih fun other hother => h other (List.mem_cons_of_mem _ hother)

/-- An opcode and its family. -/
def classify (table : List Opcode.Row) : Scan Opcode.Classification := do
  let nibble ← take 4
  classifyNibble nibble table

end Scan

theorem Immediate.ofInt?_word (low high : BitVec 8) :
    ofInt? .word (low.toNat + high.toNat <<< 8) = some (.word (high ++ low)) := by
  have hvalue : (low.toNat + high.toNat <<< 8 : Int) = ((high ++ low).toNat : Int) := by
    rw [BitVec.toNat_append, ← Nat.shiftLeft_add_eq_or_of_lt low.isLt, Nat.add_comm]
    rfl
  rw [hvalue, ofInt?, bitsOfInt?_toNat]
  rfl

namespace Decoder

variable {image : Image} {α β : Type}

/-- A decoder follows a scan when, wherever it starts, it finds the value that the scan finds in the
bits that are left, and leaves the bits that the scan leaves. Where the scan runs out of bits, the
decoder reports a truncated image. -/
def Follows (decoder : Decoder image α) (scan : Scan α) : Prop :=
  ∀ reader : BitReader image,
    match scan reader.bits with
    | .ok (a, rest) => ∃ next, decoder reader = .ok (a, next) ∧ next.bits = rest
    | .error shortage =>
      decoder reader = .error (.decode { offset := image.size, cause := shortage.cause })

theorem Follows.of_ok {decoder : Decoder image α} {scan : Scan α} (h : Follows decoder scan)
    {reader : BitReader image} {a : α} {rest : List Bool}
    (hscan : scan reader.bits = .ok (a, rest)) :
    ∃ next, decoder reader = .ok (a, next) ∧ next.bits = rest := by
  have := h reader
  rwa [hscan] at this

theorem Follows.of_error {decoder : Decoder image α} {scan : Scan α} (h : Follows decoder scan)
    {reader : BitReader image} {shortage : Shortage} (hscan : scan reader.bits = .error shortage) :
    decoder reader = .error (.decode { offset := image.size, cause := shortage.cause }) := by
  have := h reader
  rwa [hscan] at this

theorem follows_pure (a : α) : Follows (pure a : Decoder image α) (pure a) :=
  fun reader => ⟨reader, rfl, rfl⟩

theorem Follows.bind {x : Decoder image α} {s : Scan α} {f : α → Decoder image β}
    {t : α → Scan β} (hx : Follows x s) (hf : ∀ a, Follows (f a) (t a)) :
    Follows (x >>= f) (s >>= t) := by
  intro reader
  rw [bind_apply, bind_apply]
  cases hs : s reader.bits with
  | error shortage =>
    rw [hx.of_error hs]
    rfl
  | ok p =>
    obtain ⟨next, hdecoder, hrest⟩ := hx.of_ok hs
    have := hf p.1 next
    rw [hrest] at this
    rw [hdecoder]
    exact this

theorem follows_require {value? : Option α} {a : α} (h : value? = some a) :
    Follows (require value? : Decoder image α) (pure a) := by
  subst h
  exact follows_pure a

theorem follows_lift {result : Except Error α} {a : α} (h : result = .ok a) :
    Follows (liftM result : Decoder image α) (pure a) := by
  subst h
  exact follows_pure a

/-- Reading a field of admissible width follows the scan of its bits. -/
theorem follows_take {count : Nat} (hpos : 0 < count) (hmax : count ≤ maxFieldWidth) :
    Follows (take count : Decoder image _) (Scan.take count) := by
  intro reader
  rw [Scan.take]
  by_cases h : count ≤ reader.bits.length
  · rw [dif_pos h]
    exact take_of_le hpos hmax h
  · rw [dif_neg h]
    exact take_of_lt hmax (by omega)

theorem follows_flag : Follows (flag : Decoder image _) Scan.flag :=
  (follows_take (by simp) (by decide)).bind fun _ => follows_pure _

theorem follows_register (width : Width) :
    Follows (register width : Decoder image _) (Scan.register width) := by
  refine (follows_take (by simp) (by decide)).bind fun number => follows_lift ?_
  rw [Register.ofNumber, bitsOfInt?_toNat]

theorem follows_base : Follows (base : Decoder image _) Scan.base := by
  refine (follows_take (by simp) (by decide)).bind fun number => follows_lift ?_
  rw [Base.ofNumber, bitsOfInt?_toNat]

theorem follows_immediate (width : Width) :
    Follows (immediate width : Decoder image _) (Scan.immediate width) := by
  refine (follows_take (by simp) (by decide)).bind fun low => ?_
  cases width with
  | byte =>
    refine follows_require ?_
    rw [Immediate.ofInt?, bitsOfInt?_toNat]
    rfl
  | word =>
    exact (follows_take (by simp) (by decide)).bind fun high =>
      follows_require (Immediate.ofInt?_word low high)

theorem follows_effectiveAddress (settings : Settings.Decoder) (displacement : DisplacementMode) :
    Follows (effectiveAddress settings displacement : Decoder image _)
      (Scan.effectiveAddress settings displacement) := by
  refine follows_base.bind fun base => ?_
  cases displacement with
  | byte => exact (follows_immediate .byte).bind fun _ => follows_pure _
  | word => exact (follows_immediate .word).bind fun _ => follows_pure _
  | absent =>
    by_cases h : settings.directAddress = true ∧ base = .bp
    · simp only [if_pos h]
      intro reader
      rw [bind_apply, bind_apply]
      have himmediate := follows_immediate .word reader
      cases hscan : Scan.immediate .word reader.bits with
      | error shortage =>
        rw [hscan] at himmediate
        rw [himmediate]
        rfl
      | ok p =>
        rw [hscan] at himmediate
        obtain ⟨next, hdecoder, hrest⟩ := himmediate
        have hwidth := Scan.width_of_immediate hscan
        rw [hdecoder]
        exact ⟨next, by simp [Except.bind, hwidth, require, pure_apply], hrest⟩
    · simp only [if_neg h]
      exact follows_pure _

theorem follows_location (settings : Settings.Decoder) (mode : Mode) (width : Width) :
    Follows (location settings mode width : Decoder image _)
      (Scan.location settings mode width) := by
  cases mode with
  | register => exact (follows_register width).bind fun _ => follows_pure _
  | memory displacement =>
    exact (follows_effectiveAddress settings displacement).bind fun _ => follows_pure _

/-- The number of a two-bit field always selects a mode. -/
theorem follows_locationOfNumber (settings : Settings.Decoder) (mode : BitVec 2) (width : Width) :
    Follows (locationOfNumber settings mode.toNat width : Decoder image _)
      (Scan.location settings (.ofField mode) width) := by
  rw [locationOfNumber, Mode.ofNumber?_toNat]
  exact follows_location settings _ width

theorem follows_registerMemoryOperands (settings : Settings.Decoder) :
    Follows (registerMemoryOperands settings : Decoder image _)
      (Scan.registerMemoryOperands settings) := by
  refine follows_flag.bind fun d => follows_flag.bind fun w =>
    (follows_take (by simp) (by decide)).bind fun mode =>
      (follows_register _).bind fun register =>
        (follows_locationOfNumber settings mode _).bind fun location => ?_
  cases d <;> exact follows_pure _

theorem follows_immediateRegisterOperands :
    Follows (immediateRegisterOperands : Decoder image _) Scan.immediateRegisterOperands :=
  follows_flag.bind fun _ => (follows_register _).bind fun _ =>
    (follows_immediate _).bind fun _ => follows_pure _

theorem follows_groupLayout (settings : Settings.Decoder) :
    Follows (groupLayout settings : Decoder image _) (Scan.groupLayout settings) :=
  (follows_take (by simp) (by decide)).bind fun mode =>
    (follows_take (by simp) (by decide)).bind fun _ =>
      (follows_locationOfNumber settings mode .word).bind fun _ => follows_pure _

end Decoder

namespace Opcode

open Decoder

variable {image : Image}

/-- A row that does not match leaves no trace: the next one starts again behind the leading bits. -/
theorem follows_classifyNibble (nibble : BitVec 4) (rows : List Row)
    (h : ∀ row ∈ rows, row.extension.width ≤ maxFieldWidth) :
    Follows (classifyNibble nibble rows : Decoder image _) (Scan.classifyNibble nibble rows) := by
  induction rows with
  | nil => exact follows_pure _
  | cons row rows ih =>
    have hrows := ih fun other hother => h other (List.mem_cons_of_mem _ hother)
    have hrow := h row List.mem_cons_self
    obtain ⟨leading, extension, operation, _⟩ := row
    rw [classifyNibble, Scan.classifyNibble]
    by_cases hnibble : leading = nibble
    · simp only [if_pos hnibble]
      cases extension with
      | absent => exact follows_pure _
      | ignored width width_pos => exact (follows_take width_pos hrow).bind fun _ => follows_pure _
      | exactly width width_pos value =>
        intro reader
        simp only [bind_apply get, get_apply, Except.bind]
        refine (follows_take width_pos hrow).bind (fun bits => ?_) reader
        by_cases hbits : bits = value
        · simp only [if_pos hbits]
          exact follows_pure _
        · simp only [if_neg hbits]
          intro next
          exact hrows reader
    · simp only [if_neg hnibble]
      exact hrows

theorem follows_classify (table : List Row)
    (h : ∀ row ∈ table, row.extension.width ≤ maxFieldWidth) :
    Follows (classify table : Decoder image _) (Scan.classify table) :=
  (follows_take (by simp) (by decide)).bind fun nibble => follows_classifyNibble nibble table h

end Opcode

end MachineCode
