import MachineCode.Proofs.ByteString.Outcome

/-!
# Direct addresses and a bare base

Whether there are direct addresses matters in one place only: behind an opcode with a mode byte, for
the mode byte that would otherwise select a bare `bp`. Everywhere else, a decoder with direct
addresses and one without them do the same. This is not obvious from the bytes, as both may run out
of bits, so the two are compared scan by scan: they find the same, up to a bare `bp` on one side.
Such a finding has a size, so that the bits are bytes there.

## Main definitions

* `ByteString.IsDirectSlot` : the two bytes that a direct address stands behind.
* `ByteString.addressOutcome` : what an address behind two bytes makes of them.
* `Scan.AgreesUnless` : two scans that find the same up to an exception.

## Main results

* `Scan.outcome_directAddress` : elsewhere, the outcomes with and without direct addresses are
  equal.
* `Decoder.instructionAt_directAddress` : what there is with and without direct addresses.
-/

namespace MachineCode

namespace ByteString

/-- The opcode byte of a move between registers and memory, or of the group, and a mode byte that
selects `bp` without a displacement. -/
structure IsDirectSlot (opcode mode : UInt8) : Prop where
  opcode_eq : opcode >>> 4 = 8 ∨ opcode = 0xFF
  mode_eq : mode >>> 6 = 0
  operand_eq : mode &&& 7 = 6

/-- What an opcode byte and a mode byte lead to with an address: the move from or to it, or the size
of the member of the group. -/
def addressOutcome (opcode mode : UInt8) (a : EffectiveAddress) (size : Nat) : Outcome :=
  if opcode >>> 4 = 8 then
    .ok ⟨.moveRegisterMemory, operands opcode mode (.memory a), size⟩
  else
    .error (.unimplemented .registerMemoryGroup (some size))

variable {settings : Settings.Decoder} {opcode mode : UInt8}

theorem size?_addressOutcome (opcode mode : UInt8) (a : EffectiveAddress) (size : Nat) :
    (addressOutcome opcode mode a size).size? = some (size : Int) := by
  rw [addressOutcome]
  split <;> rfl

theorem outcome_of_address (h : IsDirectSlot opcode mode) {rest : List UInt8}
    {a : EffectiveAddress} {count : Nat} (ha : address settings mode rest = some (a, count)) :
    outcome settings (opcode :: mode :: rest) = addressOutcome opcode mode a (2 + count) := by
  have hlocation : ∀ w, location settings w mode rest = some (.memory a, count) := by
    intro w
    rw [location, h.mode_eq, if_neg (by decide), ha]
    rfl
  rw [outcome, addressOutcome]
  by_cases hmove : opcode >>> 4 = 8
  · rw [if_pos hmove, if_pos hmove, registerMemory, hlocation]
  · obtain rfl : opcode = 0xFF := h.opcode_eq.resolve_left hmove
    rw [if_neg hmove, if_neg hmove, if_neg (by decide), if_pos rfl, group, hlocation]

theorem outcome_bare (h : IsDirectSlot opcode mode) (rest : List UInt8) :
    outcome ⟨false⟩ (opcode :: mode :: rest) = addressOutcome opcode mode (.bare .bp) 2 := by
  have haddress : address ⟨false⟩ mode rest = some (.bare .bp, 0) := by
    rw [address, if_pos h.mode_eq, if_neg (by simp), h.operand_eq]
    rfl
  exact outcome_of_address h haddress

/-- With direct addresses, the address is in the two bytes behind, the low byte first. -/
theorem outcome_direct (h : IsDirectSlot opcode mode) (low high : UInt8) (rest : List UInt8) :
    outcome ⟨true⟩ (opcode :: mode :: low :: high :: rest) =
      addressOutcome opcode mode
        (.direct (.word (.ofNat 16 (low.toNat + 256 * high.toNat)))) 4 := by
  have haddress : address ⟨true⟩ mode (low :: high :: rest) =
      some (.direct (.word (.ofNat 16 (low.toNat + 256 * high.toNat))), 2) := by
    rw [address, if_pos h.mode_eq, if_pos ⟨rfl, h.operand_eq⟩]
    rfl
  exact outcome_of_address h haddress

theorem location_directAddress (h : mode >>> 6 = 0 → mode &&& 7 ≠ 6) (w : Width)
    (rest : List UInt8) : location ⟨true⟩ w mode rest = location ⟨false⟩ w mode rest := by
  have haddress : address ⟨true⟩ mode rest = address ⟨false⟩ mode rest := by
    rw [address, address]
    by_cases hmode : mode >>> 6 = 0
    · simp [hmode, h hmode]
    · rw [if_neg hmode, if_neg hmode]
  rw [location, location, haddress]

/-- Elsewhere, direct addresses play no part. -/
theorem outcome_directAddress {bytes : List UInt8}
    (h : ∀ opcode mode rest, bytes = opcode :: mode :: rest → ¬ IsDirectSlot opcode mode) :
    outcome ⟨true⟩ bytes = outcome ⟨false⟩ bytes := by
  match bytes with
  | [] => rfl
  | [opcode] => rfl
  | opcode :: mode :: rest =>
    have hlocation : opcode >>> 4 = 8 ∨ opcode = 0xFF → ∀ w,
        location ⟨true⟩ w mode rest = location ⟨false⟩ w mode rest :=
      fun hopcode w => location_directAddress (fun hmode hoperand =>
        h opcode mode rest rfl ⟨hopcode, hmode, hoperand⟩) w rest
    rw [outcome, outcome]
    by_cases hmove : opcode >>> 4 = 8
    · rw [if_pos hmove, if_pos hmove, registerMemory, registerMemory, hlocation (.inl hmove)]
    by_cases hgroup : opcode = 0xFF
    · rw [if_neg hmove, if_neg hmove, hgroup, group, group, hlocation (.inr hgroup)]
    · rw [if_neg hmove, if_neg hmove, if_neg hgroup, if_neg hgroup]

end ByteString

namespace Scan

open ByteString Image

variable {α β : Type}

/-- Two scans find the same in all strings of bits, unless the second one finds something with a
property. -/
def AgreesUnless (p : α → Prop) (x y : Scan α) : Prop :=
  ∀ bits, x bits = y bits ∨ ∃ a rest, y bits = .ok (a, rest) ∧ p a

theorem agreesUnless_refl (p : α → Prop) (x : Scan α) : AgreesUnless p x x :=
  fun _ => .inl rfl

/-- What comes first is the same for both scans. -/
theorem agreesUnless_bind {p : β → Prop} (x : Scan α) {f g : α → Scan β}
    (h : ∀ a, AgreesUnless p (f a) (g a)) : AgreesUnless p (x >>= f) (x >>= g) := by
  intro bits
  cases hx : x bits with
  | error shortage => exact .inl (by rw [Decoder.bind_of_error hx, Decoder.bind_of_error hx])
  | ok q =>
    rw [Decoder.bind_of_ok hx, Decoder.bind_of_ok hx]
    exact h q.1 q.2

theorem AgreesUnless.bind_pure {p : α → Prop} {q : β → Prop} {x y : Scan α}
    (h : AgreesUnless p x y) (f : α → β) (hf : ∀ a, p a → q (f a)) :
    AgreesUnless q (x >>= fun a => pure (f a)) (y >>= fun a => pure (f a)) := by
  intro bits
  rcases h bits with heq | ⟨a, rest, hy, ha⟩
  · exact .inl (by rw [Decoder.bind_apply, Decoder.bind_apply, heq])
  · exact .inr ⟨f a, rest, Decoder.bind_of_ok hy, hf a ha⟩

/-- An address is the same with direct addresses, unless it is a bare `bp` without them. -/
theorem agreesUnless_effectiveAddress (displacement : DisplacementMode) :
    AgreesUnless (· = .bare .bp) (effectiveAddress ⟨true⟩ displacement)
      (effectiveAddress ⟨false⟩ displacement) := by
  refine agreesUnless_bind base fun base => ?_
  cases displacement with
  | byte => exact agreesUnless_refl _ _
  | word => exact agreesUnless_refl _ _
  | absent =>
    by_cases hbase : base = .bp
    · subst hbase
      exact fun bits => .inr ⟨_, bits, rfl, rfl⟩
    · simp only [hbase, and_false, if_false]
      exact agreesUnless_refl _ _

theorem agreesUnless_location (mode : Mode) (width : Width) :
    AgreesUnless (· = .memory (.bare .bp)) (location ⟨true⟩ mode width)
      (location ⟨false⟩ mode width) := by
  cases mode with
  | register => exact agreesUnless_refl _ _
  | memory displacement =>
    exact (agreesUnless_effectiveAddress displacement).bind_pure _ fun a ha => congrArg _ ha

theorem agreesUnless_registerMemoryOperands :
    AgreesUnless
      (fun o => o.destination = .memory (.bare .bp) ∨ o.source = .memory (.bare .bp))
      (registerMemoryOperands ⟨true⟩) (registerMemoryOperands ⟨false⟩) := by
  refine agreesUnless_bind flag fun d => agreesUnless_bind flag fun w =>
    agreesUnless_bind (take 2) fun mode => agreesUnless_bind _ fun register => ?_
  cases d with
  | true => exact (agreesUnless_location _ _).bind_pure _ fun _ ha => .inr ha
  | false => exact (agreesUnless_location _ _).bind_pure _ fun _ ha => .inl ha

theorem agreesUnless_groupLayout :
    AgreesUnless (fun _ => True) (groupLayout ⟨true⟩) (groupLayout ⟨false⟩) :=
  agreesUnless_bind (take 2) fun _ => agreesUnless_bind (take 3) fun _ =>
    (agreesUnless_location _ _).bind_pure _ fun _ _ => trivial

/-- The same is found behind an opcode with direct addresses, unless it is something of a known
size without them. -/
theorem agreesUnless_fields (opcode : Opcode.Classification) :
    AgreesUnless (fun finding => ∀ n : Nat, (finding.outcome n).size? = some (n : Int))
      (fields ⟨true⟩ opcode) (fields ⟨false⟩ opcode) := by
  obtain ⟨operation, width, bits⟩ := opcode
  cases operation with
  | moveRegisterMemory =>
    exact agreesUnless_registerMemoryOperands.bind_pure _ fun _ _ _ => rfl
  | registerMemoryGroup => exact agreesUnless_groupLayout.bind_pure _ fun _ _ _ => rfl
  | moveImmediateRegister => exact agreesUnless_refl _ _
  | moveImmediateMemory => exact agreesUnless_refl _ _
  | moveAccumulator => exact agreesUnless_refl _ _
  | unrecognized => exact agreesUnless_refl _ _

/-- Where a string does not start with the two bytes that a direct address stands behind, direct
addresses play no part. -/
theorem outcome_directAddress {bits : List Bool}
    (h : ∀ opcode mode rest, bits = byteBits opcode ++ (byteBits mode ++ rest) →
      ¬ IsDirectSlot opcode mode) : outcome ⟨true⟩ bits = outcome ⟨false⟩ bits := by
  have hagrees := agreesUnless_bind (classify Opcode.standard) agreesUnless_fields bits
  rcases hagrees with heq | ⟨finding, rest, hscan, hsized⟩
  · have hinstruction : instruction ⟨true⟩ bits = instruction ⟨false⟩ bits := heq
    rw [outcome, outcome, hinstruction]
  · -- what is found without direct addresses has a size, so that it is found in whole bytes
    obtain ⟨size, hsize⟩ : ∃ size : Nat, (outcome ⟨false⟩ bits).size? = some (size : Int) := by
      have hfound : instruction ⟨false⟩ bits = .ok (finding, rest) := hscan
      rw [outcome, hfound]
      exact ⟨_, hsized _⟩
    obtain ⟨bytes, more, rfl, hbytes⟩ := exists_bytes_of_size? hsize
    have hsame : ByteString.outcome ⟨true⟩ bytes = ByteString.outcome ⟨false⟩ bytes :=
      ByteString.outcome_directAddress fun opcode mode rest heq =>
        h opcode mode (rest.flatMap byteBits ++ more) (by simp [heq])
    have htrue : (ByteString.outcome ⟨true⟩ bytes).size? = some (size : Int) := by
      rw [hsame, hbytes, hsize]
    rw [outcome_flatMap_append htrue more, hsame, hbytes]

/-! ### The two bytes that a direct address stands behind -/

variable {opcode mode : UInt8}

theorem outcome_bare (h : IsDirectSlot opcode mode) (rest : List Bool) :
    outcome ⟨false⟩ (byteBits opcode ++ (byteBits mode ++ rest)) =
      addressOutcome opcode mode (.bare .bp) 2 := by
  have hbytes := ByteString.outcome_bare h []
  have happend := outcome_flatMap_append
    ((congrArg Outcome.size? hbytes).trans (size?_addressOutcome _ _ _ _)) rest
  simpa [hbytes] using happend

theorem outcome_direct (h : IsDirectSlot opcode mode) (low high : UInt8) (rest : List Bool) :
    outcome ⟨true⟩ (byteBits opcode ++ (byteBits mode ++ (byteBits low ++
        (byteBits high ++ rest)))) =
      addressOutcome opcode mode
        (.direct (.word (.ofNat 16 (low.toNat + 256 * high.toNat)))) 4 := by
  have hbytes := ByteString.outcome_direct h low high []
  have happend := outcome_flatMap_append
    ((congrArg Outcome.size? hbytes).trans (size?_addressOutcome _ _ _ _)) rest
  simpa [hbytes] using happend

theorem exists_two_bytes {bits : List Bool} (h : 16 ≤ bits.length) :
    ∃ low high rest, bits = byteBits low ++ (byteBits high ++ rest) := by
  have htake : (bits.take 16).length = 8 * 2 := List.length_take_of_le h
  obtain ⟨bytes, hbytes⟩ := exists_flatMap_byteBits htake
  rw [← hbytes, length_flatMap_byteBits] at htake
  obtain ⟨low, high, rfl⟩ := List.length_eq_two.1 (Nat.eq_of_mul_eq_mul_left (by decide) htake)
  refine ⟨low, high, bits.drop 16, ?_⟩
  have hsplit := List.take_append_drop 16 bits
  rw [← hbytes] at hsplit
  simpa using hsplit.symm

/-- Where the two more are not both there, a field is missing. -/
theorem exists_truncated_of_direct (h : IsDirectSlot opcode mode) {rest : List Bool}
    (hlength : rest.length < 16) :
    ∃ requested available : Nat, available < requested ∧
      outcome ⟨true⟩ (byteBits opcode ++ (byteBits mode ++ rest)) =
        .error (.truncated requested available) := by
  -- with enough bits behind them, all four bytes are there
  have hlong : 16 ≤ (rest ++ List.replicate 16 false).length := by simp
  obtain ⟨low, high, more, hfilled⟩ := exists_two_bytes hlong
  have hsize := (congrArg Outcome.size? (outcome_direct h low high more)).trans
    (size?_addressOutcome _ _ _ _)
  rw [← hfilled] at hsize
  obtain ⟨hle, finding, hfinding⟩ := exists_finding_of_size? hsize
  have hfront : (byteBits opcode ++ (byteBits mode ++ rest)).length < 8 * 4 := by
    simp only [List.length_append, length_byteBits]
    omega
  have hbegin : byteBits opcode ++ (byteBits mode ++ rest) <+:
      (byteBits opcode ++ (byteBits mode ++ (rest ++ List.replicate 16 false))).take (8 * 4) := by
    refine List.prefix_take_iff.2 ⟨⟨List.replicate 16 false, ?_⟩, hfront.le⟩
    simp only [List.append_assoc]
  obtain ⟨shortage, hshortage⟩ := exists_shortage_of_prefix hfinding hbegin fun heq => by
    rw [heq, List.length_take_of_le hle] at hfront
    omega
  exact ⟨shortage.requested, shortage.available, shortage.available_lt, outcome_of_error hshortage⟩

end Scan

namespace Decoder

variable {image : Image}

/-- Direct addresses take the place of a bare `bp` and change nothing else. Where the bits that are
left do not start with the two bytes that a direct address stands behind, a decoder does the same
with and without direct addresses. Where they do, there is a bare `bp` without direct addresses.
With them, there is the address in the next two bytes, in the same place and with the same other
operand, and where these two bytes are not there, the image is truncated. -/
theorem instructionAt_directAddress (reader : BitReader image) (address : Nat) :
    ((∀ opcode mode rest, reader.bits = Image.byteBits opcode ++ (Image.byteBits mode ++ rest) →
          ¬ ByteString.IsDirectSlot opcode mode) →
        instructionAt ⟨true⟩ address reader = instructionAt ⟨false⟩ address reader) ∧
      ∀ opcode mode rest, reader.bits = Image.byteBits opcode ++ (Image.byteBits mode ++ rest) →
        ByteString.IsDirectSlot opcode mode →
        HasOutcome ⟨false⟩ address reader
          (ByteString.addressOutcome opcode mode (.bare .bp) 2) ∧
        (16 ≤ rest.length → ∃ low high more,
          rest = Image.byteBits low ++ (Image.byteBits high ++ more) ∧
          HasOutcome ⟨true⟩ address reader (ByteString.addressOutcome opcode mode
            (.direct (.word (.ofNat 16 (low.toNat + 256 * high.toNat)))) 4)) ∧
        (rest.length < 16 → ∃ requested available : Nat, available < requested ∧
          HasOutcome ⟨true⟩ address reader (.error (.truncated requested available))) := by
  have hwith := hasOutcome_outcome ⟨true⟩ address reader
  have hwithout := hasOutcome_outcome ⟨false⟩ address reader
  refine ⟨fun hnone => ?_, fun opcode mode rest hbits hslot => ?_⟩
  · rw [Scan.outcome_directAddress hnone] at hwith
    exact instructionAt_eq_of_hasOutcome hwith hwithout
  · rw [hbits] at hwith hwithout
    rw [Scan.outcome_bare hslot] at hwithout
    refine ⟨hwithout, fun hlength => ?_, fun hlength => ?_⟩
    · obtain ⟨low, high, more, rfl⟩ := Scan.exists_two_bytes hlength
      rw [Scan.outcome_direct hslot] at hwith
      exact ⟨low, high, more, rfl, hwith⟩
    · obtain ⟨requested, available, hlt, htruncated⟩ :=
        Scan.exists_truncated_of_direct hslot hlength
      rw [htruncated] at hwith
      exact ⟨requested, available, hlt, hwith⟩

/-- From the middle of a byte on, `8B 2E 05 00` is a load of `bp` from a bare `bp` or from the
address five. The member of the group in `FF 06 05` has two bytes or ends early, and in `89 D8`
there is no place for an address. -/
theorem instructionAt_directAddress_load :
    (∃ reader : BitReader #[0x08, 0xB2, 0xE0, 0x50, 0x00], reader.position = 4 ∧
        HasOutcome ⟨false⟩ 0 reader (.ok ⟨.moveRegisterMemory,
          ⟨.register ⟨.word, 5⟩, .memory (.bare .bp)⟩, 2⟩) ∧
        HasOutcome ⟨true⟩ 0 reader (.ok ⟨.moveRegisterMemory,
          ⟨.register ⟨.word, 5⟩, .memory (.direct (.word 5))⟩, 4⟩)) ∧
      (HasOutcome ⟨false⟩ 0 (BitReader.start #[0xFF, 0x06, 0x05])
          (.error (.unimplemented .registerMemoryGroup (some 2))) ∧
        ∃ requested available : Nat, available < requested ∧
          HasOutcome ⟨true⟩ 0 (BitReader.start #[0xFF, 0x06, 0x05])
            (.error (.truncated requested available))) ∧
      instructionAt ⟨true⟩ 0 (BitReader.start #[0x89, 0xD8]) =
        instructionAt ⟨false⟩ 0 (BitReader.start #[0x89, 0xD8]) := by
  refine ⟨?_, ?_, ?_⟩
  · let reader : BitReader #[0x08, 0xB2, 0xE0, 0x50, 0x00] := ⟨4, by decide⟩
    have hbits : reader.bits = Image.byteBits 0x8B ++ (Image.byteBits 0x2E ++
        (Image.byteBits 0x05 ++ (Image.byteBits 0x00 ++ [false, false, false, false]))) := by
      decide
    obtain ⟨hbare, hdirect, -⟩ := (instructionAt_directAddress reader 0).2 0x8B 0x2E _ hbits
      ⟨.inl rfl, rfl, rfl⟩
    obtain ⟨low, high, more, hrest, hdirect⟩ := hdirect (by decide)
    obtain ⟨rfl, hmore⟩ := Image.byteBits_append_inj.1 hrest
    obtain ⟨rfl, -⟩ := Image.byteBits_append_inj.1 hmore
    exact ⟨reader, rfl, hbare, hdirect⟩
  · obtain ⟨hbare, -, htruncated⟩ :=
      (instructionAt_directAddress (BitReader.start #[0xFF, 0x06, 0x05]) 0).2 0xFF 0x06
        (Image.byteBits 0x05) (by decide) ⟨.inr rfl, rfl, rfl⟩
    exact ⟨hbare, htruncated (by decide)⟩
  · refine (instructionAt_directAddress (BitReader.start #[0x89, 0xD8]) 0).1
      fun opcode mode rest hbits hslot => ?_
    have hstart : (BitReader.start #[0x89, 0xD8]).bits =
        Image.byteBits 0x89 ++ (Image.byteBits 0xD8 ++ []) := by decide
    obtain ⟨rfl, hmode⟩ := Image.byteBits_append_inj.1 (hstart.symm.trans hbits)
    obtain ⟨rfl, -⟩ := Image.byteBits_append_inj.1 hmode
    exact absurd hslot.mode_eq (by decide)

end Decoder

end MachineCode
