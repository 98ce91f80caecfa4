/-
# Concatenations and their boundaries

A list of nodes, each with a length, laid out one after the other.  `position`
is where a node starts, `Boundary` holds of the places between two nodes and of
both ends, and a place strictly inside a node is no boundary and belongs to that
node alone.
-/

import Mathlib.Algebra.GroupWithZero.Nat
import Mathlib.Data.List.Basic
import Mathlib.Data.List.Nodup

namespace IpAugenblick.Lib

universe u v

variable {ι : Type u} (len : ι → ℕ)

def total (xs : List ι) : ℕ := (xs.map len).sum

/-- Where the node `x` starts. -/
def position [DecidableEq ι] : List ι → ι → ℕ
  | [], _ => 0
  | y :: ys, x => if x = y then 0 else len y + position ys x

/-- A place where a node ends or the layout starts. -/
def Boundary (xs : List ι) (n : ℕ) : Prop := ∃ pre, pre <+: xs ∧ total len pre = n

variable {len} {x y : ι} {xs : List ι} {n : ℕ}

@[simp]
theorem total_nil : total len [] = 0 := rfl

@[simp]
theorem total_cons : total len (x :: xs) = len x + total len xs := by simp [total]

theorem total_append {ys : List ι} : total len (xs ++ ys) = total len xs + total len ys := by
  simp [total]

theorem boundary_zero : Boundary len xs 0 := ⟨[], List.nil_prefix, rfl⟩

/-- A boundary of a longer layout is its start or a boundary behind the first node. -/
theorem boundary_cons :
    Boundary len (x :: xs) n ↔ n = 0 ∨ ∃ m, Boundary len xs m ∧ n = len x + m := by
  constructor
  · rintro ⟨pre, hpre, rfl⟩
    cases pre with
    | nil => exact .inl rfl
    | cons y pre =>
        obtain ⟨rfl, htail⟩ := List.cons_prefix_cons.mp hpre
        exact .inr ⟨total len pre, ⟨pre, htail, rfl⟩, total_cons⟩
  · intro h
    rcases h with rfl | ⟨m, ⟨pre, hpre, rfl⟩, rfl⟩
    · exact boundary_zero
    · exact ⟨x :: pre, List.cons_prefix_cons.mpr ⟨rfl, hpre⟩, total_cons⟩

variable [DecidableEq ι]

theorem position_add_len_le_total (hx : x ∈ xs) : position len xs x + len x ≤ total len xs := by
  induction xs with
  | nil => simp at hx
  | cons y ys ih =>
      rw [position, total_cons]
      by_cases heq : x = y
      · simp [heq]
      · have htail := ih (by simpa [heq] using hx)
        rw [if_neg heq]
        omega

/-- The first occurrence of a node starts where the nodes before it end. -/
theorem position_append_cons {pre post : List ι} (hx : x ∉ pre) :
    position len (pre ++ x :: post) x = total len pre := by
  induction pre with
  | nil => simp [position]
  | cons y pre ih =>
      simp only [List.mem_cons, not_or] at hx
      rw [List.cons_append, position, if_neg hx.1, ih hx.2, total_cons]

/-- A node starts at a boundary. -/
theorem boundary_position (hx : x ∈ xs) : Boundary len xs (position len xs x) := by
  induction xs with
  | nil => simp at hx
  | cons y ys ih =>
      rw [position, boundary_cons]
      by_cases heq : x = y
      · exact .inl (if_pos heq)
      · rw [if_neg heq]
        exact .inr ⟨_, ih (by simpa [heq] using hx), rfl⟩

/-- A node ends at a boundary. -/
theorem boundary_position_add_len (hx : x ∈ xs) :
    Boundary len xs (position len xs x + len x) := by
  induction xs with
  | nil => simp at hx
  | cons y ys ih =>
      rw [position, boundary_cons]
      by_cases heq : x = y
      · subst heq
        rw [if_pos rfl]
        exact .inr ⟨0, boundary_zero, Nat.add_comm _ _⟩
      · rw [if_neg heq]
        exact .inr ⟨_, ih (by simpa [heq] using hx), Nat.add_assoc _ _ _⟩

/-- A place strictly inside a node is no boundary. -/
theorem not_boundary_of_inside (hx : x ∈ xs) (hlow : position len xs x < n)
    (hhigh : n < position len xs x + len x) : ¬ Boundary len xs n := by
  induction xs generalizing n with
  | nil => simp at hx
  | cons y ys ih =>
      rw [position] at hlow hhigh
      rw [boundary_cons]
      intro h
      by_cases heq : x = y
      · subst heq
        rw [if_pos rfl] at hlow hhigh
        rcases h with rfl | ⟨m, -, rfl⟩ <;> omega
      · rw [if_neg heq] at hlow hhigh
        rcases h with rfl | ⟨m, hm, rfl⟩
        · omega
        · exact ih (by simpa [heq] using hx) (by omega) (by omega) hm

/-- A place inside two nodes is inside one. -/
theorem eq_of_inside (hx : x ∈ xs) (hy : y ∈ xs) (hxlow : position len xs x ≤ n)
    (hxhigh : n < position len xs x + len x) (hylow : position len xs y ≤ n)
    (hyhigh : n < position len xs y + len y) : x = y := by
  induction xs generalizing n with
  | nil => simp at hx
  | cons z zs ih =>
      rw [position] at hxlow hxhigh hylow hyhigh
      by_cases hxz : x = z
      · by_cases hyz : y = z
        · rw [hxz, hyz]
        · rw [if_pos hxz] at hxhigh
          rw [if_neg hyz] at hylow
          subst hxz
          omega
      · by_cases hyz : y = z
        · rw [if_neg hxz] at hxlow
          rw [if_pos hyz] at hyhigh
          subst hyz
          omega
        · rw [if_neg hxz] at hxlow hxhigh
          rw [if_neg hyz] at hylow hyhigh
          exact ih (n := n - len z) (by simpa [hxz] using hx) (by simpa [hyz] using hy)
            (by omega) (by omega) (by omega) (by omega)

/-- A window of a node is a window of the concatenation. -/
theorem flatMap_window {β : Type v} {bytes : ι → List β}
    (hlen : ∀ x, (bytes x).length = len x) (hx : x ∈ xs) {off size : ℕ}
    (hfit : off + size ≤ len x) :
    ((xs.flatMap bytes).drop (position len xs x + off)).take size =
      ((bytes x).drop off).take size := by
  induction xs with
  | nil => simp at hx
  | cons y ys ih =>
      rw [position, List.flatMap_cons]
      by_cases heq : x = y
      · subst heq
        have hle : off ≤ (bytes x).length := by
          rw [hlen]
          omega
        rw [if_pos rfl, Nat.zero_add, List.drop_append_of_le_length hle,
          List.take_append_of_le_length]
        rw [List.length_drop, hlen]
        omega
      · rw [if_neg heq, Nat.add_assoc, ← hlen y, List.drop_append, Nat.add_sub_cancel_left,
          List.drop_eq_nil_of_le (Nat.le_add_right _ _), List.nil_append]
        exact ih (by simpa [heq] using hx)

end IpAugenblick.Lib
