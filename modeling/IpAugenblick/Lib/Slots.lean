/-
# Rows of slots

A row of `n` slots, some of them marked.  How many are marked is known by a counter that is
adjusted whenever a slot is written.  What the slots hold, one after the other, is the contents
of the row; rows whose slots are cut in two or joined in pairs have the same contents.
-/

import Mathlib.Data.Nat.Count
import Mathlib.Logic.Function.Basic

namespace IpAugenblick.Lib.Slots

universe u v

variable {α : Type u} {β : Type v} {c : ℕ → α} {p : α → Bool} {f : ℕ → List β} {i j m n : ℕ}

/-- How many of the first `n` slots are marked. -/
def marked (p : α → Bool) (c : ℕ → α) (n : ℕ) : ℕ := Nat.count (fun i => p (c i) = true) n

@[simp]
theorem marked_zero : marked p c 0 = 0 := rfl

theorem marked_succ : marked p c (n + 1) = marked p c n + (p (c n)).toNat := by
  rw [marked, Nat.count_succ, marked]
  cases p (c n) <;> rfl

theorem marked_le : marked p c n ≤ n := Nat.count_le _

/-- Only the first `n` slots count. -/
theorem marked_congr {d : ℕ → α} (h : ∀ i < n, p (c i) = p (d i)) :
    marked p c n = marked p d n := by
  induction n with
  | zero => rfl
  | succ n ih =>
      rw [marked_succ, marked_succ, ih fun i hi => h i (Nat.lt_succ_of_lt hi),
        h n (Nat.lt_succ_self n)]

/-- A slot is written. -/
theorem marked_update (hi : i < n) (x : α) :
    marked p (Function.update c i x) n + (p (c i)).toNat = marked p c n + (p x).toNat := by
  induction n with
  | zero => exact absurd hi (Nat.not_lt_zero i)
  | succ n ih =>
      rw [marked_succ, marked_succ]
      rcases Nat.lt_succ_iff_lt_or_eq.mp hi with hlt | rfl
      · rw [Function.update_of_ne (Nat.ne_of_gt hlt)]
        have hrest := ih hlt
        omega
      · rw [Function.update_self, marked_congr fun j hj => by
          rw [Function.update_of_ne (Nat.ne_of_lt hj)]]
        omega

/-- All slots are marked. -/
theorem marked_eq_iff : marked p c n = n ↔ ∀ i < n, p (c i) = true := by
  rw [marked, Nat.count_iff_forall]

/-- Some slot is marked. -/
theorem exists_marked (h : 0 < marked p c n) : ∃ i < n, p (c i) = true :=
  Nat.count_ne_iff_exists.mp (Nat.ne_of_gt h)

/-- At least two slots are not marked. -/
theorem marked_add_two_le :
    marked p c n + 2 ≤ n ↔ ∃ i j, i < j ∧ j < n ∧ p (c i) = false ∧ p (c j) = false := by
  induction n with
  | zero =>
      constructor
      · intro h
        omega
      · rintro ⟨i, j, -, hj, -⟩
        omega
  | succ n ih =>
      rw [marked_succ]
      cases hn : p (c n) with
      | true =>
          have hshift : marked p c n + true.toNat + 2 ≤ n + 1 ↔ marked p c n + 2 ≤ n := by
            rw [Bool.toNat_true]
            omega
          rw [hshift, ih]
          constructor
          · rintro ⟨i, j, hij, hj, hpi, hpj⟩
            exact ⟨i, j, hij, Nat.lt_succ_of_lt hj, hpi, hpj⟩
          · rintro ⟨i, j, hij, hj, hpi, hpj⟩
            rcases Nat.lt_succ_iff_lt_or_eq.mp hj with hlt | rfl
            · exact ⟨i, j, hij, hlt, hpi, hpj⟩
            · rw [hn] at hpj
              cases hpj
      | false =>
          have hle := marked_le (p := p) (c := c) (n := n)
          have hall := marked_eq_iff (p := p) (c := c) (n := n)
          rw [Bool.toNat_false]
          constructor
          · intro h
            have hsome : ¬ ∀ i < n, p (c i) = true := fun hmarked => by
              have := hall.mpr hmarked
              omega
            simp only [not_forall, Bool.not_eq_true] at hsome
            obtain ⟨i, hi, hpi⟩ := hsome
            exact ⟨i, n, hi, Nat.lt_succ_self n, hpi, hn⟩
          · rintro ⟨i, j, hij, hj, hpi, -⟩
            have hne : marked p c n ≠ n := fun heq => by
              have := hall.mp heq i (by omega)
              rw [hpi] at this
              cases this
            omega

/-- One slot of the row, with what is in front of it and behind it. -/
theorem flatMap_range_split (hi : i < n) (f : ℕ → List β) :
    (List.range n).flatMap f = (List.range i).flatMap f ++ f i ++
      (List.range' (i + 1) (n - (i + 1))).flatMap f := by
  have hsplit : List.range n = List.range i ++ i :: List.range' (i + 1) (n - (i + 1)) := by
    have hlen : n - (i + 1) + 1 = n - i := by omega
    rw [List.range_eq_range', List.range_eq_range', ← List.range'_succ, hlen]
    have happend := @List.range'_append_1 0 i (n - i)
    rwa [Nat.zero_add, Nat.add_sub_cancel' (Nat.le_of_lt hi), eq_comm] at happend
  rw [hsplit, List.flatMap_append, List.flatMap_cons, List.append_assoc]

theorem flatMap_range_congr {g : ℕ → List β} (h : ∀ i < n, f i = g i) :
    (List.range n).flatMap f = (List.range n).flatMap g := by
  rw [List.flatMap_def, List.flatMap_def,
    List.map_congr_left fun i hi => h i (List.mem_range.mp hi)]

/-- A slot is written. -/
theorem flatMap_range_update (hi : i < n) (g : α → List β) (x : α) :
    (List.range n).flatMap (fun j => g (Function.update c i x j)) =
      (List.range i).flatMap (fun j => g (c j)) ++ g x ++
        (List.range' (i + 1) (n - (i + 1))).flatMap fun j => g (c j) := by
  rw [flatMap_range_split hi, Function.update_self]
  congr 1
  · congr 1
    apply flatMap_range_congr
    intro j hj
    rw [Function.update_of_ne (Nat.ne_of_lt hj)]
  · rw [List.flatMap_def, List.flatMap_def]
    congr 1
    apply List.map_congr_left
    intro j hj
    rw [List.mem_range'_1] at hj
    rw [Function.update_of_ne (by omega)]

/-- All slots but one are empty. -/
theorem flatMap_range_single (hi : i < n) (h : ∀ j < n, j ≠ i → f j = []) :
    (List.range n).flatMap f = f i := by
  rw [flatMap_range_split hi, List.flatMap_eq_nil_iff.mpr, List.flatMap_eq_nil_iff.mpr,
    List.nil_append, List.append_nil]
  · intro j hj
    rw [List.mem_range'_1] at hj
    exact h j (by omega) (by omega)
  · intro j hj
    have hlt := List.mem_range.mp hj
    exact h j (by omega) (by omega)

/-- Two rows, one behind the other. -/
theorem flatMap_range_add (f : ℕ → List β) :
    (List.range (m + n)).flatMap f =
      (List.range m).flatMap f ++ (List.range n).flatMap fun j => f (j + m) := by
  rw [List.range_add, List.flatMap_append, List.flatMap_map]
  congr 2
  funext j
  rw [Nat.add_comm]

/-- Slots in pairs. -/
theorem flatMap_range_two_mul (f : ℕ → List β) :
    (List.range (2 * n)).flatMap f =
      (List.range n).flatMap fun i => f (2 * i) ++ f (2 * i + 1) := by
  induction n with
  | zero => rfl
  | succ n ih =>
      rw [Nat.mul_succ, List.range_succ, List.range_succ, List.range_succ, List.flatMap_append,
        List.flatMap_append, List.flatMap_append, ih, List.append_assoc]
      simp

end IpAugenblick.Lib.Slots
