/-
# One holder for each token

Resources that are handed from place to place (buffers, descriptors, indices) are
accounted for by saying which holder has which tokens.  Custody is exclusive when
no token is with two holders, nor twice with one.

The rules below are stated for what the holders have after a step, compared with
what they had before: a step may drop tokens, hand one over, or bring in a new one.
-/

import Mathlib.Data.List.Perm.Subperm

namespace IpAugenblick.Lib

universe u v

variable {ι : Type u} {α : Type v}

/-- Every token is with at most one holder, and there at most once. -/
structure Exclusive (held : ι → List α) : Prop where
  /-- No holder has a token twice. -/
  nodup : ∀ i, (held i).Nodup
  /-- No token has two holders. -/
  unique : ∀ {i j a}, a ∈ held i → a ∈ held j → i = j

namespace Exclusive

variable {held held' : ι → List α}

theorem of_forall_nil (hnil : ∀ i, held i = []) : Exclusive held where
  nodup i := by
    rw [hnil i]
    exact List.nodup_nil
  unique {i _ a} hi _ := by
    rw [hnil i] at hi
    exact absurd hi List.not_mem_nil

/-- Holders may drop tokens. -/
theorem drop (h : Exclusive held) (hless : ∀ i, (held' i).Subperm (held i)) :
    Exclusive held' where
  nodup i := by
    obtain ⟨kept, hperm, hsub⟩ := hless i
    exact hperm.nodup_iff.mp (hsub.nodup (h.nodup i))
  unique hi hj := h.unique ((hless _).subset hi) ((hless _).subset hj)

/-- Tokens that nobody has may be given to one holder that has none. -/
theorem giveAll (h : Exclusive held) {j : ι} {tokens : List α} (hnodup : tokens.Nodup)
    (hnew : ∀ a ∈ tokens, ∀ i, a ∉ held i) (hj : held' j = tokens)
    (hother : ∀ i, i ≠ j → held' i = held i) : Exclusive held' where
  nodup i := by
    by_cases hij : i = j
    · rw [hij, hj]
      exact hnodup
    · rw [hother i hij]
      exact h.nodup i
  unique {i k a} hi hk := by
    by_cases hij : i = j
    · by_cases hkj : k = j
      · rw [hij, hkj]
      · rw [hij, hj] at hi
        rw [hother k hkj] at hk
        exact absurd hk (hnew a hi k)
    · rw [hother i hij] at hi
      by_cases hkj : k = j
      · rw [hkj, hj] at hk
        exact absurd hi (hnew a hk i)
      · rw [hother k hkj] at hk
        exact h.unique hi hk

/-- A token that nobody has may be given to one holder. -/
theorem give (h : Exclusive held) {j : ι} {a : α} (hnew : ∀ i, a ∉ held i)
    (hj : (held' j).Subperm (a :: held j)) (hother : ∀ i, i ≠ j → (held' i).Subperm (held i)) :
    Exclusive held' := by
  have hmem : ∀ {i b}, b ∈ held' i → (b = a ∧ i = j) ∨ b ∈ held i := by
    intro i b hb
    by_cases hij : i = j
    · subst hij
      exact (List.mem_cons.mp (hj.subset hb)).imp (fun hba => ⟨hba, rfl⟩) id
    · exact .inr ((hother i hij).subset hb)
  constructor
  · intro i
    by_cases hij : i = j
    · subst hij
      obtain ⟨kept, hperm, hsub⟩ := hj
      exact hperm.nodup_iff.mp (hsub.nodup (List.nodup_cons.mpr ⟨hnew i, h.nodup i⟩))
    · obtain ⟨kept, hperm, hsub⟩ := hother i hij
      exact hperm.nodup_iff.mp (hsub.nodup (h.nodup i))
  · intro i k b hi hk
    rcases hmem hi with ⟨rfl, rfl⟩ | hi'
    · rcases hmem hk with ⟨_, rfl⟩ | hk'
      · rfl
      · exact absurd hk' (hnew k)
    · rcases hmem hk with ⟨rfl, rfl⟩ | hk'
      · exact absurd hi' (hnew i)
      · exact h.unique hi' hk'

/-- When a holder drops the token it has first, nobody has it. -/
theorem take (h : Exclusive held) {i : ι} {a : α} {rest : List α} (hfirst : held i = a :: rest)
    (hi : (held' i).Subperm rest) (hother : ∀ k, k ≠ i → (held' k).Subperm (held k)) :
    Exclusive held' ∧ ∀ k, a ∉ held' k := by
  have hless : ∀ k, (held' k).Subperm (held k) := by
    intro k
    by_cases hk : k = i
    · subst hk
      rw [hfirst]
      exact hi.trans (List.sublist_cons_self a rest).subperm
    · exact hother k hk
  refine ⟨h.drop hless, fun k hk => ?_⟩
  have hki : k = i := h.unique ((hless k).subset hk) (by rw [hfirst]; exact List.mem_cons_self)
  subst hki
  have hnodup := h.nodup k
  rw [hfirst] at hnodup
  exact (List.nodup_cons.mp hnodup).1 (hi.subset hk)

/-- A token may be handed from the holder that has it first to another one. -/
theorem hand (h : Exclusive held) {i j : ι} {a : α} {rest : List α} (hij : i ≠ j)
    (hfirst : held i = a :: rest) (hi : (held' i).Subperm rest)
    (hj : (held' j).Subperm (a :: held j))
    (hother : ∀ k, k ≠ i → k ≠ j → (held' k).Subperm (held k)) : Exclusive held' := by
  classical
  let without : ι → List α := fun k => if k = i then rest else held k
  have hwithout : Exclusive without ∧ ∀ k, a ∉ without k := by
    refine h.take hfirst ?_ fun k hk => ?_
    · simp only [without, if_true]
      exact List.Subperm.refl rest
    · simp only [without, if_neg hk]
      exact List.Subperm.refl _
  refine hwithout.1.give hwithout.2 (j := j) ?_ fun k hkj => ?_
  · simpa only [without, if_neg (Ne.symm hij)] using hj
  · by_cases hki : k = i
    · subst hki
      simpa only [without, if_true] using hi
    · simpa only [without, if_neg hki] using hother k hki hkj

/-- All that one holder has goes to another one. -/
theorem handAll (h : Exclusive held) {i j : ι} (hij : i ≠ j) {x : Option α}
    (hi : held i = x.toList) (hi' : held' i = []) (hj : (held' j).Subperm (x.toList ++ held j))
    (hother : ∀ k, k ≠ i → k ≠ j → held' k = held k) : Exclusive held' := by
  cases x with
  | none =>
      refine h.drop fun k => ?_
      by_cases hki : k = i
      · subst hki
        rw [hi']
        exact (List.nil_sublist _).subperm
      · by_cases hkj : k = j
        · subst hkj
          exact hj
        · rw [hother k hki hkj]
  | some b =>
      refine h.hand hij hi ?_ hj fun k hki hkj => ?_
      · rw [hi']
      · rw [hother k hki hkj]

end Exclusive

/-- Custody is exclusive and every one of the `tokens` is with somebody. -/
structure Conserved (held : ι → List α) (tokens : α → Prop) : Prop extends Exclusive held where
  /-- The holders have the tokens, and nothing else. -/
  all : ∀ a, (∃ i, a ∈ held i) ↔ tokens a

namespace Conserved

variable {held held' : ι → List α} {tokens : α → Prop}

/-- Holders may sort what they have. -/
theorem same (h : Conserved held tokens) (hperm : ∀ i, (held' i).Perm (held i)) :
    Conserved held' tokens where
  toExclusive := h.toExclusive.drop fun i => (hperm i).subperm
  all a := by
    rw [← h.all a]
    exact exists_congr fun i => (hperm i).mem_iff

/-- A token may be handed from one holder to another. -/
theorem hand (h : Conserved held tokens) {i j : ι} {a : α} (hij : i ≠ j)
    (hi : (held i).Perm (a :: held' i)) (hj : (held' j).Perm (a :: held j))
    (hother : ∀ k, k ≠ i → k ≠ j → held' k = held k) : Conserved held' tokens := by
  classical
  let before : ι → List α := fun k => if k = i then a :: held' i else held k
  have hbefore : Conserved before tokens := by
    refine h.same fun k => ?_
    by_cases hk : k = i
    · subst hk
      simpa only [before, if_true] using hi.symm
    · simp only [before, if_neg hk, List.Perm.refl]
  have hself : before i = a :: held' i := if_pos rfl
  have hrest : ∀ k, k ≠ i → before k = held k := fun k hk => if_neg hk
  refine ⟨hbefore.toExclusive.hand hij hself (List.Subperm.refl _) ?_ fun k hki hkj => ?_, ?_⟩
  · rw [hrest j (Ne.symm hij)]
    exact hj.subperm
  · rw [hrest k hki, hother k hki hkj]
  · intro b
    rw [← hbefore.all b]
    constructor
    · rintro ⟨k, hk⟩
      by_cases hki : k = i
      · subst hki
        exact ⟨k, by rw [hself]; exact List.mem_cons_of_mem a hk⟩
      · by_cases hkj : k = j
        · subst hkj
          rcases List.mem_cons.mp (hj.mem_iff.mp hk) with rfl | hk
          · exact ⟨i, by rw [hself]; exact List.mem_cons_self⟩
          · exact ⟨k, by rw [hrest k hki]; exact hk⟩
        · exact ⟨k, by rw [hrest k hki, ← hother k hki hkj]; exact hk⟩
    · rintro ⟨k, hk⟩
      by_cases hki : k = i
      · subst hki
        rw [hself] at hk
        rcases List.mem_cons.mp hk with rfl | hk
        · exact ⟨j, hj.mem_iff.mpr List.mem_cons_self⟩
        · exact ⟨k, hk⟩
      · rw [hrest k hki] at hk
        by_cases hkj : k = j
        · subst hkj
          exact ⟨k, hj.mem_iff.mpr (List.mem_cons_of_mem a hk)⟩
        · exact ⟨k, by rw [hother k hki hkj]; exact hk⟩

end Conserved

end IpAugenblick.Lib
