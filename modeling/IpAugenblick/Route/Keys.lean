/-
# Keys of the routing trie

Addresses in host byte order, whose bits are counted from the most significant one.  The
functions of `fib_trie.c` take them apart with shifts; what they find are prefixes and fields.
-/

import IpAugenblick.Lib.BitKeys
import Mathlib.Tactic.IntervalCases

namespace IpAugenblick.FibTrie

open Lib.BitKey

abbrev TKey := BitVec 32

def maskPfx (k : TKey) (l : ℕ) : TKey := if l = 0 then 0 else k >>> (32 - l) <<< (32 - l)

def tkeyExtractBits (a : TKey) (offset bits : ℕ) : TKey :=
  if offset < 32 then (a <<< offset) >>> (32 - bits) else 0

def tkeySubEquals (a : TKey) (offset bits : ℕ) (b : TKey) : Bool :=
  if bits = 0 ∨ 32 ≤ offset then true
  else ((a ^^^ b) <<< offset) >>> (32 - min bits 32) == 0

/-- The loop of `tkey_mismatch`, for at most `fuel` positions. -/
def mismatchFrom (diff : TKey) : ℕ → ℕ → ℕ
  | 0, i => i
  | fuel + 1, i => if (diff <<< i) >>> 31 = 0 then mismatchFrom diff fuel (i + 1) else i

def tkeyMismatch (a : TKey) (offset : ℕ) (b : TKey) : ℕ :=
  if a ^^^ b = 0 then 0 else mismatchFrom (a ^^^ b) 32 offset

/-- `inet_make_mask`, in host byte order. -/
def inetMakeMask (logmask : ℕ) : TKey :=
  if logmask = 0 then 0 else ~~~(((1 : TKey) <<< (32 - logmask)) - 1)

variable {a b : TKey} {offset bits l i : ℕ}

theorem maskPfx_eq_keep (k : TKey) (l : ℕ) : maskPfx k l = keep k l := by
  rw [maskPfx, keep]
  split
  next h =>
    rw [h]
    apply BitVec.eq_of_getLsbD_eq
    intro i hi
    simp
  next => rfl

theorem testBit_tkeyExtractBits (h : offset + bits ≤ 32) (i : ℕ) :
    (tkeyExtractBits a offset bits).getLsbD i =
      (decide (i < bits) && a.getMsbD (offset + bits - 1 - i)) := by
  rw [tkeyExtractBits]
  split
  next hlt =>
    rw [BitVec.getLsbD_ushiftRight, BitVec.getLsbD_shiftLeft, BitVec.getMsbD_eq_getLsbD]
    by_cases hi : i < bits
    · have hpos : 32 - bits + i - offset = 32 - 1 - (offset + bits - 1 - i) := by omega
      rw [hpos, decide_eq_true hi, decide_eq_true (show 32 - bits + i < 32 by omega),
        decide_eq_false (show ¬ 32 - bits + i < offset by omega),
        decide_eq_true (show offset + bits - 1 - i < 32 by omega)]
      simp
    · rw [decide_eq_false hi, decide_eq_false (show ¬ 32 - bits + i < 32 by omega)]
      simp
  next hge =>
    have hbits : bits = 0 := by omega
    rw [hbits, decide_eq_false (Nat.not_lt_zero i), Bool.false_and]
    exact BitVec.getLsbD_zero

/-- What is extracted is the field. -/
theorem toNat_tkeyExtractBits (a : TKey) (h : offset + bits ≤ 32) :
    (tkeyExtractBits a offset bits).toNat = field a offset bits := by
  apply Nat.eq_of_testBit_eq
  intro i
  rw [BitVec.testBit_toNat, testBit_tkeyExtractBits h, testBit_field]

theorem tkeySubEquals_iff (h : offset + bits ≤ 32) :
    tkeySubEquals a offset bits b = true ↔ field a offset bits = field b offset bits := by
  rw [tkeySubEquals]
  split
  next htriv =>
    have hbits : bits = 0 := by omega
    rw [hbits]
    exact ⟨fun _ => rfl, fun _ => rfl⟩
  next hsome =>
    rw [not_or, Nat.not_le] at hsome
    have hextract : ((a ^^^ b) <<< offset) >>> (32 - min bits 32) =
        tkeyExtractBits (a ^^^ b) offset bits := by
      rw [tkeyExtractBits, if_pos hsome.2, Nat.min_eq_left (by omega)]
    have hzero : (0 : TKey).toNat = field 0#32 offset bits := field_of_zero.symm
    rw [hextract, beq_iff_eq, ← BitVec.toNat_inj, toNat_tkeyExtractBits _ h, hzero, field_eq_iff,
      field_eq_iff]
    simp only [BitVec.getMsbD_xor, BitVec.getMsbD_zero, bne_eq_false_iff_eq]

theorem shift_shift_eq_zero_iff (diff : TKey) (i : ℕ) :
    (diff <<< i) >>> 31 = 0 ↔ diff.getMsbD i = false := by
  by_cases hi : i < 32
  · have hextract : (diff <<< i) >>> 31 = tkeyExtractBits diff i 1 := by
      rw [tkeyExtractBits, if_pos hi]
    rw [hextract, ← BitVec.toNat_inj, toNat_tkeyExtractBits _ hi, field_succ, field_zero]
    cases diff.getMsbD i <;> decide
  · rw [BitVec.shiftLeft_eq_zero (Nat.le_of_not_lt hi), BitVec.getMsbD_of_ge _ _ (by omega)]
    decide

/-- The loop stops at the first difference. -/
theorem mismatchFrom_spec {diff : TKey} {fuel i : ℕ} (h : ∃ p, i ≤ p ∧ p < i + fuel ∧
    diff.getMsbD p = true) :
    i ≤ mismatchFrom diff fuel i ∧ diff.getMsbD (mismatchFrom diff fuel i) = true ∧
      ∀ p, i ≤ p → p < mismatchFrom diff fuel i → diff.getMsbD p = false := by
  induction fuel generalizing i with
  | zero =>
      obtain ⟨p, hle, hlt, -⟩ := h
      omega
  | succ fuel ih =>
      obtain ⟨p, hle, hlt, hp⟩ := h
      rw [mismatchFrom]
      simp only [shift_shift_eq_zero_iff]
      cases hi : diff.getMsbD i with
      | true =>
          rw [if_neg (by decide)]
          refine ⟨le_rfl, hi, ?_⟩
          intro q hle' hlt'
          omega
      | false =>
          rw [if_pos rfl]
          have hne : p ≠ i := by
            rintro rfl
            rw [hi] at hp
            cases hp
          obtain ⟨hle', hbit, hbefore⟩ := ih (i := i + 1) ⟨p, by omega, by omega, hp⟩
          refine ⟨by omega, hbit, ?_⟩
          intro q hq hlt'
          rcases Nat.eq_or_lt_of_le hq with rfl | hlt''
          · exact hi
          · exact hbefore q hlt'' hlt'

/-- Two keys are first told apart by the bit that `tkey_mismatch` finds. -/
theorem tkeyMismatch_spec (hagree : Agree a b offset) (hne : a ≠ b) :
    offset ≤ tkeyMismatch a offset b ∧ tkeyMismatch a offset b < 32 ∧
      Agree a b (tkeyMismatch a offset b) ∧
      a.getMsbD (tkeyMismatch a offset b) ≠ b.getMsbD (tkeyMismatch a offset b) := by
  have hdiff : ∃ p, p < 32 ∧ a.getMsbD p ≠ b.getMsbD p := by
    by_contra hall
    simp only [not_exists, not_and, ne_eq, not_not] at hall
    exact hne (Agree.eq hall)
  obtain ⟨p, hp, hbit⟩ := hdiff
  have hle : offset ≤ p := by
    by_contra hlt
    exact hbit (hagree p (Nat.lt_of_not_le hlt))
  have hxor : a ^^^ b ≠ 0 := fun heq => hne (BitVec.xor_eq_zero_iff.mp heq)
  rw [tkeyMismatch, if_neg hxor]
  have hmiss : ∃ p, offset ≤ p ∧ p < offset + 32 ∧ (a ^^^ b).getMsbD p = true :=
    ⟨p, hle, by omega, by rw [BitVec.getMsbD_xor]; exact bne_iff_ne.mpr hbit⟩
  obtain ⟨hle', hmis, hbefore⟩ := mismatchFrom_spec hmiss
  refine ⟨hle', BitVec.lt_of_getMsbD hmis, ?_, ?_⟩
  · intro q hq
    by_cases hlt : q < offset
    · exact hagree q hlt
    · have hsame := hbefore q (Nat.le_of_not_lt hlt) hq
      rw [BitVec.getMsbD_xor] at hsame
      exact bne_eq_false_iff_eq.mp hsame
  · rw [BitVec.getMsbD_xor] at hmis
    exact bne_iff_ne.mp hmis

/-- A prefix length's mask keeps the prefix. -/
theorem and_inetMakeMask (k : TKey) (h : l ≤ 32) : k &&& inetMakeMask l = keep k l := by
  apply BitVec.eq_of_getMsbD_eq
  intro p hp
  have hpow : (1 : TKey) <<< (32 - l) - 1 = BitVec.ofNat 32 (2 ^ (32 - l) - 1) := by
    interval_cases l <;> decide
  rw [BitVec.getMsbD_and, getMsbD_keep, Bool.and_comm, inetMakeMask]
  congr 1
  split
  next hzero => rw [hzero]; simp
  next hpos =>
    rw [hpow, BitVec.getMsbD_not, BitVec.getMsbD_eq_getLsbD, BitVec.getLsbD_ofNat,
      Nat.testBit_two_pow_sub_one, decide_eq_true hp,
      decide_eq_true (show 32 - 1 - p < 32 by omega), Bool.true_and, Bool.true_and, Bool.true_and,
      ← decide_not]
    exact decide_eq_decide.mpr (by omega)

end IpAugenblick.FibTrie
