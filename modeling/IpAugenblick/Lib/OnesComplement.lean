/-
# One's complement sums

The Internet checksum adds words of two bytes modulo 2^16 - 1.  Carries may be added
back at any point, and bytes may be swapped: a byte more in front swaps the others,
which multiplies their sum by 256.
-/

import Mathlib.Algebra.Order.Ring.Nat
import Mathlib.Data.Nat.ModEq

namespace IpAugenblick

/-- The sum of the 16-bit words of some bytes, the last one filled up with zero. -/
def wordSum : List UInt8 → ℕ
  | [] => 0
  | [a] => a.toNat
  | a :: b :: rest => a.toNat + 256 * b.toNat + wordSum rest

@[simp]
theorem wordSum_nil : wordSum [] = 0 := rfl

@[simp]
theorem wordSum_singleton (b : UInt8) : wordSum [b] = b.toNat := rfl

@[simp]
theorem wordSum_cons_cons (b b' : UInt8) (bs : List UInt8) :
    wordSum (b :: b' :: bs) = b.toNat + 256 * b'.toNat + wordSum bs := rfl

/-- A word at a time, of a list with whole words in front. -/
theorem wordSum_append {xs : List UInt8} (h : xs.length % 2 = 0) (ys : List UInt8) :
    wordSum (xs ++ ys) = wordSum xs + wordSum ys := by
  induction xs using wordSum.induct with
  | case1 => simp
  | case2 b => simp at h
  | case3 b b' bs ih =>
      have hbs : bs.length % 2 = 0 := by
        rw [List.length_cons, List.length_cons] at h
        omega
      rw [List.cons_append, List.cons_append, wordSum_cons_cons, wordSum_cons_cons, ih hbs]
      omega

theorem wordSum_take_add_drop (bs : List UInt8) {n : ℕ} (hn : n % 2 = 0) (hle : n ≤ bs.length) :
    wordSum (bs.take n) + wordSum (bs.drop n) = wordSum bs := by
  have heven : (bs.take n).length % 2 = 0 := by rwa [List.length_take, Nat.min_eq_left hle]
  rw [← wordSum_append heven, List.take_append_drop]

/-- Every word is less than 2^16. -/
theorem wordSum_le (bs : List UInt8) : wordSum bs ≤ 65535 * ((bs.length + 1) / 2) := by
  induction bs using wordSum.induct with
  | case1 => simp
  | case2 b =>
      have hb := b.toNat_lt
      simp only [wordSum_singleton, List.length_singleton]
      omega
  | case3 b b' bs ih =>
      have hb := b.toNat_lt
      have hb' := b'.toNat_lt
      simp only [wordSum_cons_cons, List.length_cons]
      omega

/-- A byte in front swaps the bytes behind it. -/
theorem wordSum_cons_modEq (b : UInt8) (bs : List UInt8) :
    wordSum (b :: bs) ≡ b.toNat + 256 * wordSum bs [MOD 65535] := by
  induction bs using wordSum.induct generalizing b with
  | case1 => exact Nat.ModEq.refl _
  | case2 c => exact Nat.ModEq.refl _
  | case3 c d bs ih =>
      have hrest := ih d
      unfold Nat.ModEq at hrest ⊢
      simp only [wordSum_cons_cons]
      omega

/-- The halves of a number, added, with the carry added back. -/
def fold16 (n : ℕ) : ℕ :=
  let sum := n % 65536 + n / 65536 % 65536
  if 65535 < sum then sum - 65535 else sum

theorem fold16_le (n : ℕ) : fold16 n ≤ 65535 := by
  unfold fold16
  simp only
  split <;> omega

theorem fold16_modEq {n : ℕ} (hn : n < 2 ^ 32) : fold16 n ≡ n [MOD 65535] := by
  have hhigh : n / 65536 % 65536 = n / 65536 := Nat.mod_eq_of_lt (by omega)
  have hsplit : n = 65535 * (n / 65536) + (n % 65536 + n / 65536) := by omega
  have hsum : n % 65536 + n / 65536 ≡ n [MOD 65535] := by
    conv_rhs => rw [hsplit]
    exact (Nat.mul_add_mod _ _ _).symm
  unfold fold16
  simp only [hhigh]
  split
  next hcarry =>
    have hback : n % 65536 + n / 65536 - 65535 + 65535 = n % 65536 + n / 65536 := by omega
    rw [← hback] at hsum
    exact (Nat.add_mod_right _ _).symm.trans hsum
  next hnone => exact hsum

theorem fold16_of_le {n : ℕ} (hn : n ≤ 65535) : fold16 n = n := by
  unfold fold16
  simp only
  split <;> omega

end IpAugenblick
