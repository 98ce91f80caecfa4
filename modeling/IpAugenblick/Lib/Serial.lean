/-
# Serial numbers

Positions of an unbounded stream are numbered by words of `w` bits that wrap.
Two such numbers are compared by the sign of their difference, which gives the
order of the positions as long as these lie less than half the number space
apart.  The rules below turn every comparison and subtraction of serial numbers
into one of positions.
-/

import Mathlib.Algebra.Group.Nat.Defs

namespace IpAugenblick.Lib.Serial

variable {w : ℕ}

/-- The signed difference of `a` and `b` is negative. -/
def before (a b : BitVec w) : Bool := (a - b).msb

/-- The number of position `n` in a stream whose first position has number `isn`. -/
def ofPos (isn : BitVec w) (n : ℕ) : BitVec w := isn + BitVec.ofNat w n

variable {isn : BitVec w} {m n : ℕ}

@[simp]
theorem ofPos_zero : ofPos isn 0 = isn := by simp [ofPos]

@[simp]
theorem ofPos_add_ofNat (k : ℕ) : ofPos isn n + BitVec.ofNat w k = ofPos isn (n + k) := by
  rw [ofPos, ofPos, BitVec.ofNat_add, BitVec.add_assoc]

/-- The difference of two numbers is the distance of their positions. -/
theorem ofPos_sub (h : m ≤ n) : ofPos isn n - ofPos isn m = BitVec.ofNat w (n - m) := by
  obtain ⟨k, rfl⟩ := Nat.exists_eq_add_of_le h
  rw [← ofPos_add_ofNat, Nat.add_sub_cancel_left, BitVec.add_comm, BitVec.add_sub_cancel]

theorem toNat_ofPos_sub (h : m ≤ n) (hnear : n < m + 2 ^ w) :
    (ofPos isn n - ofPos isn m).toNat = n - m := by
  rw [ofPos_sub h, BitVec.toNat_ofNat]
  exact Nat.mod_eq_of_lt (by omega)

/-- Numbers are equal exactly when the positions are, less than one turn apart. -/
theorem ofPos_inj (hmn : m < n + 2 ^ w) (hnm : n < m + 2 ^ w) :
    ofPos isn m = ofPos isn n ↔ m = n := by
  refine ⟨fun heq => ?_, fun heq => by rw [heq]⟩
  rcases Nat.le_total m n with h | h
  next =>
    have hzero : (ofPos isn n - ofPos isn m).toNat = n - m := toNat_ofPos_sub h hnm
    rw [heq, BitVec.sub_self] at hzero
    simp only [BitVec.toNat_ofNat, Nat.zero_mod] at hzero
    omega
  next =>
    have hzero : (ofPos isn m - ofPos isn n).toNat = m - n := toNat_ofPos_sub h hmn
    rw [heq, BitVec.sub_self] at hzero
    simp only [BitVec.toNat_ofNat, Nat.zero_mod] at hzero
    omega

/-- **Comparison rule.**  Positions at most half the number space apart are ordered as their
numbers are. -/
theorem before_ofPos (hw : 0 < w) (hmn : m < n + 2 ^ (w - 1)) (hnm : n ≤ m + 2 ^ (w - 1)) :
    before (ofPos isn m) (ofPos isn n) = decide (m < n) := by
  have htwo : 2 ^ w = 2 * 2 ^ (w - 1) := by
    rw [← Nat.pow_succ', Nat.succ_eq_add_one, Nat.sub_add_cancel hw]
  rw [before, BitVec.msb_eq_decide, decide_eq_decide]
  rcases Nat.lt_or_ge m n with h | h
  next =>
    have hneg : ofPos isn m - ofPos isn n = -BitVec.ofNat w (n - m) := by
      have hpos : ofPos isn n - ofPos isn m = BitVec.ofNat w (n - m) := ofPos_sub (Nat.le_of_lt h)
      rw [← hpos, BitVec.neg_sub, BitVec.sub_eq_add_neg, BitVec.add_comm]
    have hmod : (n - m) % 2 ^ w = n - m := Nat.mod_eq_of_lt (by omega)
    rw [hneg, BitVec.toNat_neg, BitVec.toNat_ofNat, hmod, Nat.mod_eq_of_lt (by omega)]
    omega
  next =>
    rw [toNat_ofPos_sub h (by omega)]
    omega

end IpAugenblick.Lib.Serial
