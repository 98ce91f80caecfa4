/-
# Singly linked chains in a memory

`Linked next p xs` says that following the link function `next` from the
pointer `p` visits exactly the nodes `xs`, in order, and then meets null.  The
predicate is functional in `xs`, forces the nodes to be distinct, and only reads
the links of the listed nodes, which is what makes frame arguments one line.

`sweep` is the loop "read the link, then work on the node" that frees or
re-counts a chain; `sweepUntil` is the variant with a stop node.  The fuel only
has to cover the length of the chain.
-/

import Mathlib.Data.List.Nodup
import Mathlib.Logic.Function.Basic

namespace IpAugenblick.Lib

universe u v

variable {ι : Type u}

/-- Following `next` from `p` visits exactly the listed nodes. -/
def Linked (next : ι → Option ι) : Option ι → List ι → Prop
  | p, [] => p = none
  | p, x :: xs => p = some x ∧ Linked next (next x) xs

namespace Linked

variable {next next' : ι → Option ι} {p : Option ι} {x : ι} {xs ys : List ι}

@[simp]
theorem nil_iff : Linked next p [] ↔ p = none := Iff.rfl

@[simp]
theorem cons_iff : Linked next p (x :: xs) ↔ p = some x ∧ Linked next (next x) xs := Iff.rfl

theorem none_iff : Linked next none xs ↔ xs = [] := by
  cases xs <;> simp

/-- Only the links of the listed nodes matter. -/
theorem congr (hlinked : Linked next p xs) (hagree : ∀ x ∈ xs, next' x = next x) :
    Linked next' p xs := by
  induction xs generalizing p with
  | nil => exact hlinked
  | cons x xs ih =>
      refine ⟨hlinked.1, ?_⟩
      rw [hagree x (by simp)]
      exact ih hlinked.2 fun y hy => hagree y (by simp [hy])

/-- A pointer determines its chain. -/
theorem unique (hxs : Linked next p xs) (hys : Linked next p ys) : xs = ys := by
  induction xs generalizing p ys with
  | nil =>
      rw [nil_iff] at hxs
      subst hxs
      exact (none_iff.mp hys).symm
  | cons x xs ih =>
      cases ys with
      | nil =>
          rw [nil_iff] at hys
          simp [hys] at hxs
      | cons y ys =>
          obtain rfl : x = y := Option.some.inj (hxs.1.symm.trans hys.1)
          rw [ih hxs.2 hys.2]

/-- The part of a chain behind a node is the chain that node starts. -/
theorem drop_front {pre : List ι} (hlinked : Linked next p (pre ++ x :: xs)) :
    Linked next (some x) (x :: xs) := by
  induction pre generalizing p with
  | nil => exact ⟨rfl, hlinked.2⟩
  | cons y pre ih => exact ih hlinked.2

/-- A node behind itself would make its chain longer than itself. -/
theorem nodup (hlinked : Linked next p xs) : xs.Nodup := by
  induction xs generalizing p with
  | nil => exact List.nodup_nil
  | cons x xs ih =>
      refine List.nodup_cons.mpr ⟨fun hmem => ?_, ih hlinked.2⟩
      obtain ⟨pre, post, rfl⟩ := List.append_of_mem hmem
      have hinner : Linked next (some x) (x :: post) := drop_front hlinked.2
      have hequal := unique hinner.2 hlinked.2
      have hlength := congrArg List.length hequal
      simp only [List.length_append, List.length_cons] at hlength
      omega

/-- Overwriting the link of the last listed node of a prefix joins two chains. -/
theorem append [DecidableEq ι] {pre : List ι} {q : Option ι}
    (hpre : Linked next p (pre ++ [x])) (hys : Linked next q ys)
    (hfresh : x ∉ ys) :
    Linked (Function.update next x q) p (pre ++ x :: ys) := by
  induction pre generalizing p with
  | nil =>
      refine ⟨hpre.1, ?_⟩
      rw [Function.update_self]
      refine hys.congr fun y hy => Function.update_of_ne ?_ _ _
      rintro rfl
      exact hfresh hy
  | cons y pre ih =>
      have hne : y ≠ x := by
        have hnodup := hpre.nodup
        simp only [List.cons_append, List.nodup_cons, List.mem_append, List.mem_singleton,
          not_or] at hnodup
        exact hnodup.1.2
      refine ⟨hpre.1, ?_⟩
      rw [Function.update_of_ne hne]
      exact ih hpre.2

/-- Cutting the link of a node ends its chain there. -/
theorem cut [DecidableEq ι] {pre : List ι} (hlinked : Linked next p (pre ++ x :: xs)) :
    Linked (Function.update next x none) p (pre ++ [x]) := by
  induction pre generalizing p with
  | nil => exact ⟨hlinked.1, by simp⟩
  | cons y pre ih =>
      have hne : y ≠ x := by
        have hnodup := hlinked.nodup
        simp only [List.cons_append, List.nodup_cons, List.mem_append, List.mem_cons,
          not_or] at hnodup
        exact hnodup.1.2.1
      refine ⟨hlinked.1, ?_⟩
      rw [Function.update_of_ne hne]
      exact ih hlinked.2

/-- The link of the last node of a chain is null. -/
theorem next_last {pre : List ι} (hlinked : Linked next p (pre ++ [x])) : next x = none := by
  have hlast := drop_front hlinked
  exact hlast.2

/-- With another link of its last node, a chain continues where that link points. -/
theorem of_update [DecidableEq ι] {pre : List ι} {q : Option ι}
    (hpre : Linked next p (pre ++ [x])) (hys : Linked (Function.update next x q) p ys) :
    ∃ zs, ys = pre ++ x :: zs ∧ Linked (Function.update next x q) q zs := by
  induction pre generalizing p ys with
  | nil =>
      obtain ⟨rfl, -⟩ := hpre
      cases ys with
      | nil => cases hys
      | cons y ys =>
          obtain rfl : x = y := Option.some.inj hys.1
          have hrest := hys.2
          rw [Function.update_self] at hrest
          exact ⟨ys, rfl, hrest⟩
  | cons z pre ih =>
      have hne : z ≠ x := by
        have hnodup := hpre.nodup
        simp only [List.cons_append, List.nodup_cons, List.mem_append, List.mem_singleton,
          not_or] at hnodup
        exact hnodup.1.2
      obtain ⟨rfl, htail⟩ := hpre
      cases ys with
      | nil => cases hys
      | cons y ys =>
          obtain rfl : z = y := Option.some.inj hys.1
          have hrest := hys.2
          rw [Function.update_of_ne hne] at hrest
          obtain ⟨zs, rfl, hzs⟩ := ih htail hrest
          exact ⟨zs, rfl, hzs⟩

/-- Linking the last node of a chain to one of its nodes leaves no end to reach. -/
theorem not_of_cycle [DecidableEq ι] {pre : List ι} {y : ι} (hpre : Linked next p (pre ++ [x]))
    (hy : y ∈ pre) : ¬ Linked (Function.update next x (some y)) p ys := by
  intro hys
  obtain ⟨zs, rfl, hzs⟩ := of_update hpre hys
  obtain ⟨as, bs, rfl⟩ := List.append_of_mem hy
  rw [List.append_assoc, List.cons_append] at hys
  have hagain := unique hzs (drop_front hys)
  have hlength := congrArg List.length hagain
  simp only [List.length_cons, List.length_append] at hlength
  omega

end Linked

/-! ## Loops along a chain -/

variable {σ : Type v}

/-- The loop `while (x) { n = x->next; work(x); x = n; }` with a bound on the
number of rounds. -/
def sweep (next : σ → ι → Option ι) (work : σ → ι → σ) : ℕ → σ → Option ι → σ
  | 0, s, _ => s
  | _ + 1, s, none => s
  | fuel + 1, s, some x => sweep next work fuel (work s x) (next s x)

/-- With enough fuel the loop works on the nodes of the chain, in order, as long
as working on a node leaves the links of the others alone. -/
theorem sweep_eq_foldl {next : σ → ι → Option ι} {work : σ → ι → σ}
    (hframe : ∀ s x y, y ≠ x → next (work s x) y = next s y)
    {fuel : ℕ} {s : σ} {p : Option ι} {xs : List ι}
    (hlinked : Linked (next s) p xs) (hfuel : xs.length ≤ fuel) :
    sweep next work fuel s p = xs.foldl work s := by
  induction xs generalizing fuel s p with
  | nil =>
      rw [Linked.nil_iff] at hlinked
      subst hlinked
      cases fuel <;> rfl
  | cons x xs ih =>
      cases fuel with
      | zero => simp at hfuel
      | succ fuel =>
          obtain ⟨rfl, htail⟩ := hlinked
          have hnodup := (show Linked (next s) (some x) (x :: xs) from ⟨rfl, htail⟩).nodup
          have hx : x ∉ xs := (List.nodup_cons.mp hnodup).1
          simp only [sweep, List.foldl_cons]
          refine ih ?_ (by simpa using hfuel)
          refine htail.congr fun y hy => hframe s x y ?_
          rintro rfl
          exact hx hy

/-- The same loop that also ends, without working, at the node `stop`. -/
def sweepUntil [DecidableEq ι] (stop : Option ι) (next : σ → ι → Option ι)
    (work : σ → ι → σ) : ℕ → σ → Option ι → σ
  | 0, s, _ => s
  | _ + 1, s, none => s
  | fuel + 1, s, some x =>
      if some x = stop then s
      else sweepUntil stop next work fuel (work s x) (next s x)

/-- The stopped loop works on the nodes in front of the stop node. -/
theorem sweepUntil_eq_foldl [DecidableEq ι] {stop : Option ι} {next : σ → ι → Option ι}
    {work : σ → ι → σ} (hframe : ∀ s x y, y ≠ x → next (work s x) y = next s y)
    {fuel : ℕ} {s : σ} {p : Option ι} {xs ys : List ι}
    (hlinked : Linked (next s) p (xs ++ ys)) (hfuel : (xs ++ ys).length ≤ fuel)
    (hxs : ∀ x ∈ xs, some x ≠ stop) (hys : ys = [] ∨ ys.head? = stop) :
    sweepUntil stop next work fuel s p = xs.foldl work s := by
  induction xs generalizing fuel s p with
  | nil =>
      cases fuel with
      | zero => rfl
      | succ fuel =>
          cases ys with
          | nil =>
              rw [List.nil_append, Linked.nil_iff] at hlinked
              subst hlinked
              rfl
          | cons y ys =>
              have hstop : some y = stop := by simpa using hys
              obtain ⟨rfl, -⟩ := hlinked
              simp [sweepUntil, hstop]
  | cons x xs ih =>
      cases fuel with
      | zero => simp at hfuel
      | succ fuel =>
          have hnodup := hlinked.nodup
          obtain ⟨rfl, htail⟩ := hlinked
          have hx : x ∉ xs ++ ys := (List.nodup_cons.mp hnodup).1
          simp only [sweepUntil, hxs x (by simp), if_false, List.foldl_cons]
          refine ih ?_ (by simpa using hfuel) fun y hy => hxs y (by simp [hy])
          refine htail.congr fun y hy => hframe s x y ?_
          rintro rfl
          exact hx hy

end IpAugenblick.Lib
