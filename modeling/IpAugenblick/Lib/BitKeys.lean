/-
# Keys that are read bit by bit

A key of `w` bits is read from its most significant bit on.  Keys that agree on their first bits
share a prefix; the bits behind it, taken as a number, tell the keys of that prefix apart and put
them in order.  A key whose bits behind some position are cleared stands for the prefix itself.
-/

import Mathlib.Algebra.Order.Ring.Nat
import Mathlib.Tactic.Ring

namespace IpAugenblick.Lib.BitKey

variable {w : ℕ} {a b c : BitVec w} {m n k off : ℕ}

/-- Two keys have the same first `n` bits. -/
def Agree (a b : BitVec w) (n : ℕ) : Prop := ∀ p < n, a.getMsbD p = b.getMsbD p

/-- The number that `n` bits of a key make, from position `off` on. -/
def field (a : BitVec w) (off : ℕ) : ℕ → ℕ
  | 0 => 0
  | n + 1 => 2 * field a off n + (a.getMsbD (off + n)).toNat

/-- The key with the bits behind its first `n` cleared. -/
def keep (a : BitVec w) (n : ℕ) : BitVec w := a >>> (w - n) <<< (w - n)

namespace Agree

theorem refl (a : BitVec w) (n : ℕ) : Agree a a n := fun _ _ => rfl

theorem symm (h : Agree a b n) : Agree b a n := fun p hp => (h p hp).symm

theorem trans (hab : Agree a b n) (hbc : Agree b c n) : Agree a c n := fun p hp =>
  (hab p hp).trans (hbc p hp)

theorem mono (h : Agree a b n) (hle : m ≤ n) : Agree a b m := fun p hp => h p (hp.trans_le hle)

/-- All of the bits. -/
theorem eq (h : Agree a b w) : a = b := BitVec.eq_of_getMsbD_eq h

end Agree

theorem agree_zero : Agree a b 0 := nofun

@[simp]
theorem field_zero : field a off 0 = 0 := rfl

theorem field_succ : field a off (n + 1) = 2 * field a off n + (a.getMsbD (off + n)).toNat := rfl

@[simp]
theorem field_of_zero : field 0#w off n = 0 := by
  induction n with
  | zero => rfl
  | succ n ih =>
      rw [field_succ, ih, BitVec.getMsbD_zero]
      rfl

theorem field_lt : field a off n < 2 ^ n := by
  induction n with
  | zero => exact Nat.one_pos
  | succ n ih =>
      rw [field_succ, Nat.pow_succ]
      have hbit := Bool.toNat_le (a.getMsbD (off + n))
      omega

/-- A field that is cut in two. -/
theorem field_add : field a off (m + n) = field a off m * 2 ^ n + field a (off + m) n := by
  induction n with
  | zero => rw [Nat.add_zero, Nat.pow_zero, Nat.mul_one, field_zero, Nat.add_zero]
  | succ n ih =>
      rw [← Nat.add_assoc, field_succ, field_succ, ih, ← Nat.add_assoc off, Nat.pow_succ]
      ring

theorem field_succ_left :
    field a off (n + 1) = (a.getMsbD off).toNat * 2 ^ n + field a (off + 1) n := by
  rw [Nat.add_comm n 1, field_add]
  congr 2
  exact Nat.zero_add _

/-- The bits of a field. -/
theorem testBit_field (i : ℕ) :
    (field a off n).testBit i = (decide (i < n) && a.getMsbD (off + n - 1 - i)) := by
  induction n generalizing i with
  | zero => rw [field_zero, Nat.zero_testBit, decide_eq_false (Nat.not_lt_zero i), Bool.false_and]
  | succ n ih =>
      cases i with
      | zero =>
          rw [field_succ, Nat.testBit_zero, decide_eq_true (Nat.succ_pos n), Bool.true_and,
            Nat.sub_zero, ← Nat.add_assoc, Nat.add_sub_cancel]
          cases a.getMsbD (off + n) <;> simp
      | succ i =>
          rw [field_succ, Nat.testBit_succ]
          have hhalf : (2 * field a off n + (a.getMsbD (off + n)).toNat) / 2 = field a off n := by
            have hbit := Bool.toNat_lt (a.getMsbD (off + n))
            omega
          have hpos : off + (n + 1) - 1 - (i + 1) = off + n - 1 - i := by omega
          rw [hhalf, ih i, hpos]
          congr 1
          exact decide_eq_decide.mpr Nat.succ_lt_succ_iff.symm

/-- Fields are the same when the bits are. -/
theorem field_eq_iff :
    field a off n = field b off n ↔ ∀ p, off ≤ p → p < off + n → a.getMsbD p = b.getMsbD p := by
  constructor
  · intro h p hle hlt
    have hbit := congrArg (Nat.testBit · (off + n - 1 - p)) h
    simp only [testBit_field, decide_eq_true (show off + n - 1 - p < n by omega), Bool.true_and,
      show off + n - 1 - (off + n - 1 - p) = p by omega] at hbit
    exact hbit
  · intro h
    apply Nat.eq_of_testBit_eq
    intro i
    rw [testBit_field, testBit_field]
    by_cases hi : i < n
    · rw [h _ (by omega) (by omega)]
    · rw [decide_eq_false hi, Bool.false_and, Bool.false_and]

theorem Agree.field_eq (h : Agree a b m) (hle : off + n ≤ m) : field a off n = field b off n :=
  field_eq_iff.mpr fun p _ hp => h p (hp.trans_le hle)

/-- The first bits and the field behind them. -/
theorem agree_add : Agree a b (off + n) ↔ Agree a b off ∧ field a off n = field b off n := by
  constructor
  · exact fun h => ⟨h.mono (Nat.le_add_right _ _), h.field_eq le_rfl⟩
  · rintro ⟨hagree, hfield⟩ p hp
    by_cases hlt : p < off
    · exact hagree p hlt
    · exact field_eq_iff.mp hfield p (Nat.le_of_not_lt hlt) hp

theorem toNat_eq_field : a.toNat = field a 0 w := by
  apply Nat.eq_of_testBit_eq
  intro i
  rw [testBit_field, BitVec.testBit_toNat, BitVec.getLsbD_eq_getMsbD, Nat.zero_add]

/-- A key has as many bits as it has. -/
theorem field_mono (h : ∀ p, off ≤ p → p < off + n → a.getMsbD p = true → b.getMsbD p = true) :
    field a off n ≤ field b off n := by
  induction n with
  | zero => exact le_rfl
  | succ n ih =>
      rw [field_succ, field_succ]
      have hrest := ih fun p hle hlt => h p hle (by omega)
      have hlast := h (off + n) (by omega) (by omega)
      have hbit : (a.getMsbD (off + n)).toNat ≤ (b.getMsbD (off + n)).toNat := by
        cases ha : a.getMsbD (off + n) with
        | false => exact Nat.zero_le _
        | true => rw [hlast ha]
      omega

/-- Keys of one prefix are in the order of the bits behind it. -/
theorem Agree.lt (h : Agree a b off) (hfield : field a off n < field b off n)
    (hle : off + n ≤ w) : a < b := by
  rw [BitVec.lt_def, toNat_eq_field, toNat_eq_field]
  obtain ⟨rest, rfl⟩ := Nat.exists_eq_add_of_le hle
  have hfirst : field a 0 off = field b 0 off := h.field_eq (Nat.zero_add off).le
  have hrest : field a (0 + (off + n)) rest < 2 ^ rest := field_lt
  rw [field_add, field_add (a := b), field_add (m := off), field_add (a := b) (m := off), hfirst,
    Nat.zero_add off]
  have hstep := Nat.mul_le_mul_right (2 ^ rest) hfield
  rw [Nat.succ_mul] at hstep
  rw [Nat.add_mul, Nat.add_mul]
  omega

@[simp]
theorem getMsbD_keep (p : ℕ) : (keep a n).getMsbD p = (decide (p < n) && a.getMsbD p) := by
  rw [keep, BitVec.getMsbD_shiftLeft, BitVec.getMsbD_ushiftRight]
  by_cases hp : p < w
  · by_cases hn : p < n
    · have hin : p + (w - n) < w := by omega
      simp [hn, hin]
    · have hout : ¬ p + (w - n) < w := by omega
      simp [hn, hout]
  · have hout : ¬ p + (w - n) < w := by omega
    rw [BitVec.getMsbD_of_ge a p (Nat.le_of_not_lt hp)]
    simp [hout]

/-- All bits are kept. -/
theorem keep_of_le (h : w ≤ n) : keep a n = a := by
  rw [keep, Nat.sub_eq_zero_of_le h]
  exact BitVec.shiftLeft_zero _

/-- Fewer bits, smaller fields. -/
theorem field_keep_mono (h : m ≤ n) : field (keep a m) off k ≤ field (keep a n) off k := by
  apply field_mono
  intro p _ _ hp
  rw [getMsbD_keep, Bool.and_eq_true, decide_eq_true_eq] at hp ⊢
  exact ⟨hp.1.trans_le h, hp.2⟩

end IpAugenblick.Lib.BitKey
