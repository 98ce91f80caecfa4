/-
# Random bytes

`get_random_bytes` counts the whole `int`s of a buffer, and its loop counts bytes
up to the number of `int`s.  So it copies one draw of `rand` for every sixteen bytes
and leaves the others as they were.
-/

import IpAugenblick.Lib.Bytes
import Mathlib.Data.List.Nodup

namespace IpAugenblick

open Lib

/-! ## The source -/

/-- A `memcpy` of the first bytes of a draw of `rand` into the buffer. -/
structure RandomCopy where
  offset : ℕ
  draw : ℕ
  size : ℕ
  deriving DecidableEq, Repr

/-- The loop of `get_random_bytes`. -/
def randomLoop (intnum idx draw : ℕ) : List RandomCopy :=
  if idx < intnum then ⟨idx, draw, 4⟩ :: randomLoop intnum (idx + 4) (draw + 1) else []
termination_by intnum - idx

/-- `get_random_bytes`: what it copies, in order. -/
def getRandomBytes (nbytes : ℕ) : List RandomCopy :=
  let intnum := nbytes / 4
  if intnum = 0 then [⟨0, 0, nbytes⟩] else randomLoop intnum 0 0

/-- The byte at an index is overwritten. -/
def RandomCopy.Covers (c : RandomCopy) (i : ℕ) : Prop := c.offset ≤ i ∧ i < c.offset + c.size

instance (c : RandomCopy) (i : ℕ) : Decidable (c.Covers i) := inferInstanceAs (Decidable (_ ∧ _))

/-- The byte that is copied to an index, of the draw in memory. -/
def RandomCopy.byte (c : RandomCopy) (rand : ℕ → UInt32) (i : ℕ) : UInt8 :=
  (leBytes 4 (rand c.draw).toNat).getD (i - c.offset) 0

/-- The memory from `buf` on after a copy. -/
def RandomCopy.apply (rand : ℕ → UInt32) (buf : ℕ → UInt8) (c : RandomCopy) (i : ℕ) : UInt8 :=
  if c.Covers i then c.byte rand i else buf i

/-- The memory from `buf` on after some copies. -/
def afterCopies (rand : ℕ → UInt32) (buf : ℕ → UInt8) (cs : List RandomCopy) : ℕ → UInt8 :=
  cs.foldl (RandomCopy.apply rand) buf

/-! ## What is overwritten -/

section Copies

variable {rand : ℕ → UInt32} {buf : ℕ → UInt8} {cs : List RandomCopy} {i : ℕ}

theorem afterCopies_uncovered (h : ∀ c ∈ cs, ¬ c.Covers i) :
    afterCopies rand buf cs i = buf i := by
  induction cs generalizing buf with
  | nil => rfl
  | cons c cs ih =>
      have hrest := @ih (RandomCopy.apply rand buf c) fun c' hc' =>
        h c' (List.mem_cons_of_mem _ hc')
      exact hrest.trans (if_neg (h c List.mem_cons_self))

/-- A byte that is overwritten has the value of the last copy to it. -/
theorem afterCopies_covered (h : ∃ c ∈ cs, c.Covers i) :
    ∃ c ∈ cs, c.Covers i ∧ afterCopies rand buf cs i = c.byte rand i := by
  induction cs generalizing buf with
  | nil =>
      obtain ⟨c, hc, -⟩ := h
      cases hc
  | cons c cs ih =>
      by_cases hlater : ∃ c' ∈ cs, c'.Covers i
      · obtain ⟨c', hc', hcovers, hbyte⟩ := @ih (RandomCopy.apply rand buf c) hlater
        exact ⟨c', List.mem_cons_of_mem _ hc', hcovers, hbyte⟩
      · have hnone : ∀ c' ∈ cs, ¬ c'.Covers i := fun c' hc' hcovers => hlater ⟨c', hc', hcovers⟩
        obtain ⟨c', hc', hcovers⟩ := h
        rcases List.mem_cons.mp hc' with rfl | hmem
        · refine ⟨c', List.mem_cons_self, hcovers, ?_⟩
          exact (afterCopies_uncovered hnone).trans (if_pos hcovers)
        · exact absurd hcovers (hnone c' hmem)

end Copies

/-- The rounds of the loop. -/
theorem randomLoop_eq (intnum draw : ℕ) :
    randomLoop intnum (4 * draw) draw =
      (List.range' draw ((intnum + 3) / 4 - draw)).map fun k => ⟨4 * k, k, 4⟩ := by
  generalize hleft : (intnum + 3) / 4 - draw = left
  induction left generalizing draw with
  | zero =>
      have hdone : ¬ 4 * draw < intnum := by omega
      rw [randomLoop, if_neg hdone]
      rfl
  | succ left ih =>
      have hround : 4 * draw < intnum := by omega
      rw [randomLoop, if_pos hround, List.range'_succ, List.map_cons, ← ih (draw + 1) (by omega)]
      rfl

/-- How many bytes of the buffer `get_random_bytes` overwrites. -/
def randomBytes (nbytes : ℕ) : ℕ := if nbytes < 4 then nbytes else 4 * ((nbytes / 4 + 3) / 4)

/-- What `get_random_bytes` copies. -/
theorem getRandomBytes_eq (nbytes : ℕ) :
    getRandomBytes nbytes =
      if nbytes < 4 then [⟨0, 0, nbytes⟩]
      else (List.range ((nbytes / 4 + 3) / 4)).map fun k => ⟨4 * k, k, 4⟩ := by
  rw [getRandomBytes]
  by_cases hshort : nbytes < 4
  · have hnone : nbytes / 4 = 0 := Nat.div_eq_of_lt hshort
    simp only [hnone, hshort, if_true]
  · have hsome : nbytes / 4 ≠ 0 := by omega
    simp only [hsome, hshort, if_false]
    rw [List.range_eq_range']
    exact randomLoop_eq (nbytes / 4) 0

/-- The bytes that are overwritten are the first ones. -/
theorem covered_iff (nbytes i : ℕ) :
    (∃ c ∈ getRandomBytes nbytes, c.Covers i) ↔ i < randomBytes nbytes := by
  rw [getRandomBytes_eq, randomBytes]
  by_cases hshort : nbytes < 4
  · simp [hshort, RandomCopy.Covers]
  · simp only [hshort, if_false]
    constructor
    · rintro ⟨c, hc, hcovers⟩
      obtain ⟨k, hk, rfl⟩ := List.mem_map.mp hc
      have hlt := List.mem_range.mp hk
      have hend : i < 4 * k + 4 := hcovers.2
      omega
    · intro hi
      refine ⟨⟨4 * (i / 4), i / 4, 4⟩, List.mem_map.mpr ⟨i / 4, ?_, rfl⟩, ?_, ?_⟩
      · exact List.mem_range.mpr (by omega)
      · exact Nat.mul_div_le i 4
      · exact Nat.lt_mul_div_succ i (by decide)

theorem randomBytes_le (nbytes : ℕ) : randomBytes nbytes ≤ nbytes := by
  unfold randomBytes
  split <;> omega

/-- The whole buffer is overwritten with bytes of draws, each of them used once, and nothing
behind it. -/
structure FillsBuffer (nbytes : ℕ) : Prop where
  filled : ∀ (rand : ℕ → UInt32) (buf : ℕ → UInt8), ∀ i < nbytes, ∃ c ∈ getRandomBytes nbytes,
    c.Covers i ∧ afterCopies rand buf (getRandomBytes nbytes) i = c.byte rand i
  once : ((getRandomBytes nbytes).map (·.draw)).Nodup
  within : ∀ c ∈ getRandomBytes nbytes, c.offset + c.size ≤ nbytes

/-- Every draw is copied once. -/
theorem getRandomBytes_once (nbytes : ℕ) : ((getRandomBytes nbytes).map (·.draw)).Nodup := by
  rw [getRandomBytes_eq]
  split
  · exact List.nodup_singleton 0
  · have hdraws : ((List.range ((nbytes / 4 + 3) / 4)).map fun k => RandomCopy.mk (4 * k) k 4).map
        (·.draw) = List.range ((nbytes / 4 + 3) / 4) := by
      rw [List.map_map]
      exact List.map_id _
    rw [hdraws]
    exact List.nodup_range

/-- No copy reaches beyond the buffer. -/
theorem getRandomBytes_within (nbytes : ℕ) :
    ∀ c ∈ getRandomBytes nbytes, c.offset + c.size ≤ nbytes := by
  intro c hc
  by_contra hover
  have hsize : 0 < c.size := by
    rw [getRandomBytes_eq] at hc
    split at hc
    next =>
      rw [List.mem_singleton.mp hc] at hover ⊢
      simp at hover
    next =>
      obtain ⟨k, -, rfl⟩ := List.mem_map.mp hc
      exact Nat.succ_pos 3
  have hlast : c.Covers (c.offset + c.size - 1) := ⟨by omega, by omega⟩
  have hlt := (covered_iff nbytes _).mp ⟨c, hc, hlast⟩
  have hle := randomBytes_le nbytes
  omega

/-- The first `randomBytes` bytes are bytes of draws. -/
theorem getRandomBytes_filled (rand : ℕ → UInt32) (buf : ℕ → UInt8) {nbytes i : ℕ}
    (hi : i < randomBytes nbytes) :
    ∃ c ∈ getRandomBytes nbytes, c.Covers i ∧
      afterCopies rand buf (getRandomBytes nbytes) i = c.byte rand i :=
  afterCopies_covered ((covered_iff nbytes i).mpr hi)

/-- The buffer is filled exactly when all its bytes are overwritten. -/
theorem fillsBuffer_iff_le (nbytes : ℕ) : FillsBuffer nbytes ↔ nbytes ≤ randomBytes nbytes := by
  constructor
  · intro hfills
    by_contra hshort
    obtain ⟨c, hc, hcovers, -⟩ := hfills.filled (fun _ => 0) (fun _ => 0) (randomBytes nbytes)
      (Nat.lt_of_not_le hshort)
    exact absurd ((covered_iff nbytes _).mp ⟨c, hc, hcovers⟩) (Nat.lt_irrefl _)
  · intro hle
    refine ⟨?_, getRandomBytes_once nbytes, getRandomBytes_within nbytes⟩
    intro rand buf i hi
    exact getRandomBytes_filled rand buf (Nat.lt_of_lt_of_le hi hle)

/-- `get_random_bytes` fills buffers of four bytes at most. -/
theorem fills_buffer_iff (nbytes : ℕ) : FillsBuffer nbytes ↔ nbytes ≤ 4 := by
  rw [fillsBuffer_iff_le, randomBytes]
  split <;> omega

/-- Of sixteen bytes, twelve are left as they were. -/
theorem not_fills_buffer : ¬ FillsBuffer 16 := by
  rw [fillsBuffer_iff_le]
  decide

end IpAugenblick
