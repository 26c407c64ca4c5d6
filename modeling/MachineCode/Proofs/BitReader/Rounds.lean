import MachineCode.Proofs.BitReader.Exact

/-!
# The rounds of a read

A read takes its bits in rounds, one for each byte that it touches. Two things can go wrong in a
round: its byte may lie behind the end of the image, and the distance by which the byte is shifted,
a difference, may be negative. This file lists the rounds of a read, with that distance as an
integer, and shows that in a read which stays within the image neither happens.

## Main definitions

* `BitReader.Partial.rounds` : the rounds of a read.

## Main results

* `BitReader.Partial.extend?_eq_foldlM_rounds` : a read is its rounds, one behind the other.
* `BitReader.Partial.runsWithin` : the rounds of a read that stays within the image.
-/

namespace MachineCode.BitReader.Partial

/-- A round of a read: the read in front of it, and the number of bits that are still due. -/
structure Round where
  read : Partial
  left : Nat

namespace Round

/-- The number of bits that a round takes: as many as its byte still holds, but not more than are
due. -/
def chunk (round : Round) : Nat :=
  min (8 - round.read.bitOffset) round.left

/-- The distance by which the byte of a round is shifted, so that the bits of the round come to
stand at its end. -/
def shift (round : Round) : Int :=
  8 - round.read.bitOffset - round.chunk

theorem bitOffset_add_chunk_le (round : Round) : round.read.bitOffset + round.chunk ≤ 8 := by
  have := round.read.bitOffset_lt
  unfold chunk
  omega

/-- The read behind a round. There is none where the byte of the round does not exist. -/
def next? (image : Image) (round : Round) : Option Partial :=
  image[round.read.byteIndex]?.map fun byte =>
    round.read.add byte round.chunk round.bitOffset_add_chunk_le

end Round

variable {image : Image}

/-- The rounds of a read of `left` more bits, in their order. They end when no more bits are due, or
with a round whose byte does not exist. -/
def rounds (image : Image) (read : Partial) (left : Nat) : List Round :=
  if _h : 0 < left then
    ⟨read, left⟩ ::
      match (Round.mk read left).next? image with
      | some next => rounds image next (left - (Round.mk read left).chunk)
      | none => []
  else
    []
termination_by left
decreasing_by
  have := read.bitOffset_lt
  simp only [Round.chunk]
  omega

theorem rounds_of_pos (image : Image) (read : Partial) {left : Nat} (h : 0 < left) :
    rounds image read left = ⟨read, left⟩ ::
      match (Round.mk read left).next? image with
      | some next => rounds image next (left - (Round.mk read left).chunk)
      | none => [] := by
  rw [rounds, dif_pos h]

@[simp] theorem rounds_zero (read : Partial) : rounds image read 0 = [] := by
  rw [rounds, dif_neg (Nat.lt_irrefl 0)]

/-- A read is its rounds, one behind the other, and nothing else. -/
theorem extend?_eq_foldlM_rounds (read : Partial) (left : Nat) :
    read.extend? image left =
      (rounds image read left).foldlM (fun _ round => round.next? image) read := by
  induction left using Nat.strong_induction_on generalizing read with
  | _ left ih =>
    rcases Nat.eq_zero_or_pos left with rfl | hpos
    · rw [rounds_zero, extend?, dif_neg (Nat.lt_irrefl 0)]
      rfl
    · have hoffset := read.bitOffset_lt
      rw [rounds_of_pos image read hpos, extend?, dif_pos hpos]
      cases hbyte : image[read.byteIndex]? with
      | none =>
        simp only [Round.next?, hbyte, Option.map_none, List.foldlM_cons, Option.bind_eq_bind,
          Option.bind_none]
      | some byte =>
        have hless : left - min (8 - read.bitOffset) left < left := by omega
        simp only [Round.next?, hbyte, Option.map_some, List.foldlM_cons, Option.bind_eq_bind,
          Option.bind_some, Round.chunk]
        exact ih _ hless _

theorem Round.exists_next? (round : Round) (h : round.read.byteIndex < image.size) :
    ∃ next, round.next? image = some next ∧
      next.position = round.read.position + round.chunk := by
  refine ⟨round.read.add image[round.read.byteIndex] round.chunk round.bitOffset_add_chunk_le, ?_,
    position_add ..⟩
  rw [next?, Array.getElem?_eq_getElem h, Option.map_some]

/-- The rounds of a read of `left` more bits stay within the image: each of them takes some bits of
a byte that exists, and shifts this byte by a distance that is not negative. Together they take all
the bits, and there are not more of them than bytes are touched. -/
structure RunsWithin (image : Image) (read : Partial) (left : Nat) : Prop where
  byteIndex_lt : ∀ round ∈ rounds image read left, round.read.byteIndex < image.size
  shift_nonneg : ∀ round ∈ rounds image read left, 0 ≤ round.shift
  chunk_pos : ∀ round ∈ rounds image read left, 0 < round.chunk
  sum_chunk : ((rounds image read left).map Round.chunk).sum = left
  length_le : 8 * (rounds image read left).length ≤ read.bitOffset + left + 7

theorem runsWithin_zero (image : Image) (read : Partial) : RunsWithin image read 0 := by
  constructor <;> simp

/-- The rounds of a read stay within the image when its first round does, and all the others do. -/
theorem RunsWithin.of_next {read next : Partial} {left : Nat} (hpos : 0 < left)
    (hindex : read.byteIndex < image.size)
    (hnext : (Round.mk read left).next? image = some next)
    (hposition : next.position = read.position + (Round.mk read left).chunk)
    (hrest : RunsWithin image next (left - (Round.mk read left).chunk)) :
    RunsWithin image read left := by
  have hoffset := read.bitOffset_lt
  have hchunk : (Round.mk read left).chunk = min (8 - read.bitOffset) left := rfl
  have hrounds := rounds_of_pos image read hpos
  simp only [hnext] at hrounds
  constructor
  case byteIndex_lt =>
    rw [hrounds]
    exact List.forall_mem_cons.2 ⟨hindex, hrest.byteIndex_lt⟩
  case shift_nonneg =>
    have hshift : 0 ≤ (Round.mk read left).shift := by
      have := (Round.mk read left).bitOffset_add_chunk_le
      simp only [Round.shift]
      omega
    rw [hrounds]
    exact List.forall_mem_cons.2 ⟨hshift, hrest.shift_nonneg⟩
  case chunk_pos =>
    rw [hrounds]
    exact List.forall_mem_cons.2 ⟨by omega, hrest.chunk_pos⟩
  case sum_chunk =>
    rw [hrounds, List.map_cons, List.sum_cons, hrest.sum_chunk]
    omega
  case length_le =>
    rw [hrounds, List.length_cons]
    rcases Nat.eq_zero_or_pos (left - (Round.mk read left).chunk) with hzero | hmore
    · rw [hzero, rounds_zero, List.length_nil]
      omega
    · -- bits are left over, so the round ends with its byte
      have hstart : next.bitOffset = 0 := by
        have := next.bitOffset_lt
        simp only [position] at hposition
        omega
      have := hrest.length_le
      omega

/-- The rounds of a read that stays within the image do so, too. -/
theorem runsWithin (read : Partial) (left : Nat) (h : read.position + left ≤ image.bitSize) :
    RunsWithin image read left := by
  induction left using Nat.strong_induction_on generalizing read with
  | _ left ih =>
    rcases Nat.eq_zero_or_pos left with rfl | hpos
    · exact runsWithin_zero image read
    · have hoffset := read.bitOffset_lt
      have hchunk : (Round.mk read left).chunk = min (8 - read.bitOffset) left := rfl
      have hindex : read.byteIndex < image.size := by
        rw [position, Image.bitSize] at h
        omega
      obtain ⟨next, hnext, hplace⟩ := Round.exists_next? ⟨read, left⟩ hindex
      have hposition : next.position = read.position + (Round.mk read left).chunk := hplace
      exact .of_next hpos hindex hnext hposition (ih _ (by omega) next (by omega))

end MachineCode.BitReader.Partial
