/-
# Lists of keyed values

A list of pairs in which no key occurs twice is a finite map.  Looking a key up, putting a pair
in and taking one out are what they are for maps, wherever in the list the pair is.
-/

import Mathlib.Data.Nat.Notation
import Mathlib.Logic.Function.Basic

namespace IpAugenblick.Lib.Keyed

universe u v

variable {κ : Type u} {β : Type v} {xs ys zs : List (κ × β)} {k : κ} {b : β}

def Distinct (xs : List (κ × β)) : Prop := xs.Pairwise fun x y => x.1 ≠ y.1

/-- What is in front of a key and what is behind it. -/
theorem Distinct.split_unique {b' : β} {xs' ys' : List (κ × β)}
    (hd : Distinct (xs ++ (k, b) :: ys)) (h : xs ++ (k, b) :: ys = xs' ++ (k, b') :: ys') :
    xs = xs' ∧ b = b' ∧ ys = ys' := by
  induction xs generalizing xs' with
  | nil =>
      cases xs' with
      | nil =>
          rw [List.nil_append, List.nil_append, List.cons.injEq, Prod.mk.injEq] at h
          exact ⟨rfl, h.1.2, h.2⟩
      | cons x xs' =>
          rw [List.nil_append, List.cons_append, List.cons.injEq] at h
          have hmem : (k, b') ∈ ys := h.2 ▸ List.mem_append_right _ List.mem_cons_self
          have hne := (List.pairwise_cons.mp hd).1 (k, b') hmem
          exact absurd rfl hne
  | cons x xs ih =>
      obtain ⟨hx, hrest⟩ := List.pairwise_cons.mp hd
      cases xs' with
      | nil =>
          rw [List.nil_append, List.cons_append, List.cons.injEq] at h
          have hne := hx (k, b) (List.mem_append_right _ List.mem_cons_self)
          exact absurd (congrArg Prod.fst h.1) hne
      | cons x' xs' =>
          rw [List.cons_append, List.cons_append, List.cons.injEq] at h
          obtain ⟨hxs, hb, hys⟩ := ih hrest h.2
          exact ⟨by rw [h.1, hxs], hb, hys⟩

variable [DecidableEq κ]

theorem lookup_eq_none (h : ∀ x ∈ xs, x.1 ≠ k) : xs.lookup k = none := by
  rw [List.lookup_eq_none_iff]
  intro x hx
  exact bne_iff_ne.mpr (h x hx).symm

theorem mem_of_lookup (h : xs.lookup k = some b) : (k, b) ∈ xs := by
  obtain ⟨l₁, l₂, rfl, -⟩ := List.lookup_eq_some_iff.mp h
  exact List.mem_append_right _ List.mem_cons_self

/-- A key is looked up where it is. -/
theorem Distinct.lookup_iff (hd : Distinct xs) : xs.lookup k = some b ↔ (k, b) ∈ xs := by
  refine ⟨mem_of_lookup, fun hmem => ?_⟩
  obtain ⟨l₁, l₂, rfl⟩ := List.append_of_mem hmem
  rw [List.lookup_eq_some_iff]
  refine ⟨l₁, l₂, rfl, fun x hx => ?_⟩
  have hne := (List.pairwise_append.mp hd).2.2 x hx (k, b) List.mem_cons_self
  exact bne_iff_ne.mpr hne.symm

/-- Lists with the same pairs are the same map. -/
theorem Distinct.lookup_congr (hx : Distinct xs) (hy : Distinct ys)
    (h : ∀ b, (k, b) ∈ xs ↔ (k, b) ∈ ys) : xs.lookup k = ys.lookup k := by
  ext b
  rw [hx.lookup_iff, hy.lookup_iff]
  exact h b

/-- A pair takes the place of what had its key. -/
theorem Distinct.lookup_insert (hx : Distinct xs) (hy : Distinct ys)
    (h : ∀ x, x ∈ ys ↔ x = (k, b) ∨ x.1 ≠ k ∧ x ∈ xs) (a : κ) :
    ys.lookup a = Function.update (fun a => xs.lookup a) k (some b) a := by
  by_cases ha : a = k
  · rw [ha, Function.update_self, hy.lookup_iff, h]
    exact .inl rfl
  · rw [Function.update_of_ne ha]
    apply hy.lookup_congr hx
    intro c
    rw [h]
    constructor
    · rintro (heq | ⟨-, hmem⟩)
      · exact absurd (congrArg Prod.fst heq) ha
      · exact hmem
    · exact fun hmem => .inr ⟨ha, hmem⟩

/-- What has the key is taken out. -/
theorem Distinct.lookup_erase (hx : Distinct xs) (hy : Distinct ys)
    (h : ∀ x, x ∈ ys ↔ x.1 ≠ k ∧ x ∈ xs) (a : κ) :
    ys.lookup a = Function.update (fun a => xs.lookup a) k none a := by
  by_cases ha : a = k
  · rw [ha, Function.update_self]
    exact lookup_eq_none fun x hx' => ((h x).mp hx').1
  · rw [Function.update_of_ne ha]
    apply hy.lookup_congr hx
    intro c
    rw [h]
    exact ⟨fun hmem => hmem.2, fun hmem => ⟨ha, hmem⟩⟩

/-- Values in descending order of their ranks are searched rank by rank. -/
theorem findSome?_of_descending {ι : Type u} {f : ι → Option β} {rank : ι → ℕ}
    {g : ℕ → Option ι} {n : ℕ} {xs : List ι} (hxs : xs.Pairwise fun a b => rank b < rank a)
    (hn : ∀ x ∈ xs, rank x < n) (hg : ∀ p < n, ∀ x, g p = some x ↔ x ∈ xs ∧ rank x = p) :
    xs.findSome? f = (List.range n).reverse.findSome? fun p => (g p).bind f := by
  induction n generalizing xs with
  | zero =>
      cases xs with
      | nil => rfl
      | cons x xs => exact absurd (hn x List.mem_cons_self) (Nat.not_lt_zero _)
  | succ n ih =>
      rw [List.range_succ, List.reverse_append, List.reverse_singleton, List.singleton_append,
        List.findSome?_cons]
      cases hlast : g n with
      | none =>
          have hlt : ∀ x ∈ xs, rank x < n := by
            intro x hx
            refine Nat.lt_of_le_of_ne (Nat.le_of_lt_succ (hn x hx)) fun heq => ?_
            have hsome := (hg n (Nat.lt_succ_self n) x).mpr ⟨hx, heq⟩
            rw [hlast] at hsome
            cases hsome
          exact ih hxs hlt fun p hp => hg p (Nat.lt_succ_of_lt hp)
      | some x =>
          obtain ⟨hx, hrank⟩ := (hg n (Nat.lt_succ_self n) x).mp hlast
          cases xs with
          | nil => cases hx
          | cons y ys =>
              obtain ⟨hy, hys⟩ := List.pairwise_cons.mp hxs
              have heq : x = y := by
                rcases List.mem_cons.mp hx with heq | hin
                · exact heq
                · have hlt := hy x hin
                  have hle := hn y List.mem_cons_self
                  omega
              subst heq
              rw [List.findSome?_cons, Option.bind_some]
              have hrest := ih hys (fun z hz => hrank ▸ hy z hz) fun p hp z => by
                rw [hg p (Nat.lt_succ_of_lt hp) z, List.mem_cons]
                constructor
                · rintro ⟨rfl | hz, hzp⟩
                  · omega
                  · exact ⟨hz, hzp⟩
                · exact fun hz => ⟨.inr hz.1, hz.2⟩
              rw [hrest]

end IpAugenblick.Lib.Keyed
