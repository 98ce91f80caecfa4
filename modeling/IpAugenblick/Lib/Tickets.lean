/-
# Tickets

Takers draw ranges of consecutive numbers from a dispenser and hand them in again in the order in
which they were drawn.  The ranges that are out fill the window between the first number that is
not in yet and the next number to be drawn, without overlap.  The numbers are read on a counter
that wraps around, which tells numbers of one window apart.
-/

import Mathlib.Data.Nat.ModEq
import Mathlib.Logic.Function.Basic
import Mathlib.Tactic.Cases

namespace IpAugenblick.Lib

universe u

/-- Two numbers of a window that is smaller than the counter are equal when they read the same. -/
theorem ofNat_inj_of_window {a b w : ℕ} (hab : a ≤ b) (hb : b < a + 2 ^ w)
    (h : BitVec.ofNat w a = BitVec.ofNat w b) : a = b := by
  have hmod : a % 2 ^ w = b % 2 ^ w := by
    have hnat := congrArg BitVec.toNat h
    rwa [BitVec.toNat_ofNat, BitVec.toNat_ofNat] at hnat
  have hdvd : 2 ^ w ∣ b - a := (Nat.modEq_iff_dvd' hab).mp hmod
  rcases Nat.eq_zero_or_pos (b - a) with hzero | hpos
  · omega
  · have hle := Nat.le_of_dvd hpos hdvd
    omega

/-- The distance between two numbers of a window is what the counter shows. -/
theorem toNat_ofNat_sub_ofNat {a b w : ℕ} (hab : a ≤ b) (hb : b < a + 2 ^ w) :
    (BitVec.ofNat w b - BitVec.ofNat w a).toNat = b - a := by
  obtain ⟨d, rfl⟩ := Nat.exists_eq_add_of_le hab
  have hd : d < 2 ^ w := by omega
  rw [BitVec.ofNat_add, BitVec.add_comm, BitVec.add_sub_cancel, BitVec.toNat_ofNat,
    Nat.mod_eq_of_lt hd, Nat.add_sub_cancel_left]

/-- The ranges `[first, first + count)` that are out fill the window from `lo` to `hi`. -/
structure Tickets {ι : Type u} (lo hi : ℕ) (out : ι → Option (ℕ × ℕ)) : Prop where
  within : ∀ {t first count}, out t = some (first, count) →
    lo ≤ first ∧ 0 < count ∧ first + count ≤ hi
  apart : ∀ {t u first count first' count'}, t ≠ u → out t = some (first, count) →
    out u = some (first', count') → first + count ≤ first' ∨ first' + count' ≤ first
  filled : ∀ p, lo ≤ p → p < hi → ∃ t first count, out t = some (first, count) ∧ first ≤ p ∧
    p < first + count

namespace Tickets

variable {ι : Type u} {lo hi : ℕ} {out : ι → Option (ℕ × ℕ)} {t : ι}

/-- Nothing is out. -/
theorem none (n : ℕ) : Tickets n n fun _ : ι => Option.none where
  within := nofun
  apart := nofun
  filled _ hlo hhi := absurd hhi (Nat.not_lt.mpr hlo)

/-- Unless all are in, the first range is out. -/
theorem exists_first (h : Tickets lo hi out) (hlt : lo < hi) :
    ∃ t n, out t = some (lo, n) := by
  obtain ⟨t, first, count, ht, hle, -⟩ := h.filled lo le_rfl hlt
  obtain rfl : first = lo := Nat.le_antisymm hle (h.within ht).1
  exact ⟨t, count, ht⟩

variable [DecidableEq ι]

/-- The next range is drawn. -/
theorem draw (h : Tickets lo hi out) (hlohi : lo ≤ hi) (hidle : out t = Option.none)
    {n : ℕ} (hn : 0 < n) :
    Tickets lo (hi + n) (Function.update out t (some (hi, n))) where
  within := by
    intro u first count hu
    rcases eq_or_ne u t with rfl | hne
    · rw [Function.update_self] at hu
      cases hu
      exact ⟨hlohi, hn, le_rfl⟩
    · rw [Function.update_of_ne hne] at hu
      have hwithin := h.within hu
      omega
  apart := by
    intro u v first count first' count' huv hu hv
    rcases eq_or_ne u t with rfl | hut
    · rw [Function.update_self] at hu
      rw [Function.update_of_ne huv.symm] at hv
      cases hu
      exact .inr (h.within hv).2.2
    · rw [Function.update_of_ne hut] at hu
      rcases eq_or_ne v t with rfl | hvt
      · rw [Function.update_self] at hv
        cases hv
        exact .inl (h.within hu).2.2
      · rw [Function.update_of_ne hvt] at hv
        exact h.apart huv hu hv
  filled := by
    intro p hlo hhi
    rcases Nat.lt_or_ge p hi with hlt | hge
    · obtain ⟨u, first, count, hu, hrange⟩ := h.filled p hlo hlt
      have hne : u ≠ t := by
        rintro rfl
        rw [hidle] at hu
        cases hu
      exact ⟨u, first, count, by rwa [Function.update_of_ne hne], hrange⟩
    · exact ⟨t, hi, n, Function.update_self .., hge, hhi⟩

/-- The first range is handed in. -/
theorem handIn (h : Tickets lo hi out) {n : ℕ} (hfirst : out t = some (lo, n)) :
    Tickets (lo + n) hi (Function.update out t Option.none) where
  within := by
    intro u first count hu
    rcases eq_or_ne u t with rfl | hne
    · rw [Function.update_self] at hu
      cases hu
    · rw [Function.update_of_ne hne] at hu
      have hwithin := h.within hu
      have hapart := h.apart hne hu hfirst
      omega
  apart := by
    intro u v first count first' count' huv hu hv
    rcases eq_or_ne u t with rfl | hut
    · rw [Function.update_self] at hu
      cases hu
    · rw [Function.update_of_ne hut] at hu
      rcases eq_or_ne v t with rfl | hvt
      · rw [Function.update_self] at hv
        cases hv
      · rw [Function.update_of_ne hvt] at hv
        exact h.apart huv hu hv
  filled := by
    intro p hlo hhi
    obtain ⟨u, first, count, hu, hrange⟩ := h.filled p (by omega) hhi
    have hne : u ≠ t := by
      rintro rfl
      rw [hfirst] at hu
      cases hu
      omega
    exact ⟨u, first, count, by rwa [Function.update_of_ne hne], hrange⟩

end Tickets

end IpAugenblick.Lib
