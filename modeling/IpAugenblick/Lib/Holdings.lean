/-
# The weight of what is held

A party holds things, some of them in several places.  `weight w xs` is the total weight of the
things in the list `xs`, each counted once however often it is listed: what is owed for them.
New things add their weight; a thing that leaves one place takes its weight along only if that
was the last place, which is why counting places and counting things come apart.
-/

import IpAugenblick.Lib.Boundary
import Mathlib.Algebra.BigOperators.Group.Finset.Basic

namespace IpAugenblick.Lib

universe u

variable {ι : Type u} [DecidableEq ι] {w w' : ι → ℕ} {xs ys : List ι}

/-- The weight of the things in a list, each counted once. -/
def weight (w : ι → ℕ) (xs : List ι) : ℕ := ∑ x ∈ xs.toFinset, w x

@[simp]
theorem weight_nil : weight w ([] : List ι) = 0 := rfl

theorem weight_congr (h : ∀ x ∈ xs, w x = w' x) : weight w xs = weight w' xs := by
  apply Finset.sum_congr rfl
  intro x hx
  exact h x (List.mem_toFinset.mp hx)

/-- Leaving out what weighs nothing changes nothing. -/
theorem weight_of_subset (hsub : ys ⊆ xs) (hzero : ∀ x ∈ xs, x ∉ ys → w x = 0) :
    weight w ys = weight w xs := by
  apply Finset.sum_subset
  · intro x hx
    exact List.mem_toFinset.mpr (hsub (List.mem_toFinset.mp hx))
  · intro x hx hnot
    exact hzero x (List.mem_toFinset.mp hx) fun hmem => hnot (List.mem_toFinset.mpr hmem)

/-- Where a thing is listed does not matter. -/
theorem weight_perm (h : xs.Perm ys) : weight w xs = weight w ys := by
  unfold weight
  rw [List.toFinset_eq_of_perm xs ys h]

/-- A thing that is nowhere else, or that weighs nothing, adds its weight. -/
theorem weight_cons {x : ι} (h : w x = 0 ∨ x ∉ xs) :
    weight w (x :: xs) = w x + weight w xs := by
  unfold weight
  rw [List.toFinset_cons]
  by_cases hmem : x ∈ xs
  · have hzero := h.resolve_right (not_not_intro hmem)
    rw [Finset.insert_eq_of_mem (List.mem_toFinset.mpr hmem), hzero, Nat.zero_add]
  · exact Finset.sum_insert fun hin => hmem (List.mem_toFinset.mp hin)

/-- **Release.**  Things that are listed once, or weigh nothing, take their whole weight along. -/
theorem weight_release (h : ∀ y ∈ ys, w y = 0 ∨ (ys ++ xs).count y = 1) :
    weight w (ys ++ xs) = total w ys + weight w xs := by
  induction ys with
  | nil => rw [List.nil_append, total_nil, Nat.zero_add]
  | cons y ys ih =>
      have hfirst : w y = 0 ∨ y ∉ ys ++ xs := by
        refine (h y List.mem_cons_self).imp id fun honce => ?_
        rw [List.cons_append, List.count_cons_self] at honce
        exact List.count_eq_zero.mp (Nat.succ.inj honce)
      have hrest : ∀ z ∈ ys, w z = 0 ∨ (ys ++ xs).count z = 1 := by
        intro z hz
        by_cases hsame : z = y
        · subst hsame
          exact .inl (hfirst.resolve_right fun hnot => hnot (List.mem_append_left _ hz))
        · refine (h z (List.mem_cons_of_mem _ hz)).imp id fun honce => ?_
          rwa [List.cons_append, List.count_cons_of_ne fun heq => hsame heq.symm] at honce
      rw [List.cons_append, weight_cons hfirst, ih hrest, total_cons, Nat.add_assoc]

/-- **Taking in.**  Distinct new things add their whole weight. -/
theorem weight_append_fresh (hnodup : ys.Nodup) (hfresh : ∀ y ∈ ys, y ∉ xs) :
    weight w (xs ++ ys) = weight w xs + total w ys := by
  rw [weight_perm List.perm_append_comm, weight_release, Nat.add_comm]
  intro y hy
  right
  rw [List.count_append, List.count_eq_one_of_mem hnodup hy, List.count_eq_zero.mpr (hfresh y hy)]

end IpAugenblick.Lib
