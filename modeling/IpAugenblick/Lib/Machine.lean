/-
# Guarded runs of a state machine

A component is given as a partial step function: `step s a` is `some s'` when
the label `a` is enabled in `s`.  The same definition replays a concrete run and
carries the proofs about all runs.

`ReachableWhere ok` collects the states of the runs whose every step satisfies
`ok` in the state before it.  With the trivial guard it is ordinary
reachability; with a proper guard it states what holds in the runs that keep
clear of a known fault.
-/

import Mathlib.Logic.Basic

namespace IpAugenblick.Lib

universe u v

/-- An initial state together with a step function that refuses disabled labels. -/
structure Machine (σ : Type u) (α : Type v) where
  /-- Where every run starts. -/
  init : σ
  /-- One step, or `none` when the label is not enabled. -/
  step : σ → α → Option σ

namespace Machine

variable {σ : Type u} {α : Type v} (M : Machine σ α)

/-- Replay a list of labels from `s`. -/
def runFrom : σ → List α → Option σ
  | s, [] => some s
  | s, a :: as => (M.step s a).bind fun t => runFrom t as

/-- Replay a list of labels from the initial state. -/
def run (as : List α) : Option σ := M.runFrom M.init as

@[simp]
theorem runFrom_nil (s : σ) : M.runFrom s [] = some s := rfl

@[simp]
theorem runFrom_cons (s : σ) (a : α) (as : List α) :
    M.runFrom s (a :: as) = (M.step s a).bind fun t => M.runFrom t as := rfl

/-- Replaying a concatenation is replaying the two parts in turn. -/
theorem runFrom_append (s : σ) (as bs : List α) :
    M.runFrom s (as ++ bs) = (M.runFrom s as).bind fun t => M.runFrom t bs := by
  induction as generalizing s with
  | nil => rfl
  | cons a as ih =>
      simp only [List.cons_append, runFrom_cons]
      cases M.step s a with
      | none => rfl
      | some t => simpa using ih t

/-- The states of the runs all of whose steps meet `ok` in the state before. -/
inductive ReachableWhere (ok : σ → α → Prop) : σ → Prop
  | /-- The empty run. -/
    init : ReachableWhere ok M.init
  | /-- One more step that meets the guard. -/
    step {s t : σ} {a : α} (prior : ReachableWhere ok s) (guard : ok s a)
      (taken : M.step s a = some t) : ReachableWhere ok t

/-- The states of all runs. -/
def Reachable : σ → Prop := M.ReachableWhere fun _ _ => True

/-- **Invariant rule.**  What holds initially and survives every guarded step
holds in every state of a guarded run. -/
theorem invariant_of_step {ok : σ → α → Prop} {inv : σ → Prop} (hinit : inv M.init)
    (hstep : ∀ s a t, inv s → ok s a → M.step s a = some t → inv t)
    {s : σ} (hreach : M.ReachableWhere ok s) : inv s := by
  induction hreach with
  | init => exact hinit
  | step _ guard taken ih => exact hstep _ _ _ ih guard taken

/-- A run that meets a guard meets every weaker one. -/
theorem ReachableWhere.mono {M : Machine σ α} {ok ok' : σ → α → Prop}
    (hle : ∀ s a, ok s a → ok' s a) {s : σ} (h : M.ReachableWhere ok s) :
    M.ReachableWhere ok' s := by
  induction h with
  | init => exact .init
  | step _ guard taken ih => exact .step ih (hle _ _ guard) taken

/-- A guarded run extends a reachable state to a reachable state. -/
theorem ReachableWhere.runFrom {ok : σ → α → Prop} {M : Machine σ α} {s : σ}
    (hs : M.ReachableWhere ok s) (hok : ∀ s a, ok s a) :
    ∀ (as : List α) {t : σ}, M.runFrom s as = some t → M.ReachableWhere ok t := by
  intro as
  induction as generalizing s with
  | nil =>
      intro t hrun
      simp only [runFrom_nil, Option.some.injEq] at hrun
      exact hrun ▸ hs
  | cons a as ih =>
      intro t hrun
      simp only [runFrom_cons, Option.bind_eq_some_iff] at hrun
      obtain ⟨middle, hstep, hrest⟩ := hrun
      exact ih (.step hs (hok s a) hstep) hrest

/-- A successful replay ends in a reachable state. -/
theorem reachable_of_run {as : List α} {s : σ} (hrun : M.run as = some s) :
    M.Reachable s :=
  ReachableWhere.runFrom .init (fun _ _ => trivial) as hrun

/-- **Lockstep rule.**  Two states that a relation holds of, and that every step of a list keeps
related, replay the list alike. -/
theorem runFrom_rel {R : σ → σ → Prop} {ok : α → Prop}
    (hstep : ∀ s t a, R s t → ok a → Option.Rel R (M.step s a) (M.step t a)) :
    ∀ (as : List α), (∀ a ∈ as, ok a) → ∀ {s t : σ}, R s t →
      Option.Rel R (M.runFrom s as) (M.runFrom t as) := by
  intro as
  induction as with
  | nil => exact fun _ _ _ h => .some h
  | cons a as ih =>
      intro hok s t h
      have hfirst := hstep s t a h (hok a List.mem_cons_self)
      simp only [runFrom_cons]
      cases hs : M.step s a with
      | none =>
          rw [hs] at hfirst
          cases ht : M.step t a with
          | none => exact .none
          | some t' =>
              rw [ht] at hfirst
              cases hfirst
      | some s' =>
          rw [hs] at hfirst
          cases ht : M.step t a with
          | none =>
              rw [ht] at hfirst
              cases hfirst
          | some t' =>
              rw [ht] at hfirst
              cases hfirst with
              | some h' => exact ih (fun b hb => hok b (List.mem_cons_of_mem a hb)) h'

/-- The machine that refuses the steps that do not meet `ok`. -/
def restrict (ok : σ → α → Prop) [∀ s a, Decidable (ok s a)] : Machine σ α where
  init := M.init
  step s a := if ok s a then M.step s a else none

/-- What the restricted machine replays, the machine replays. -/
theorem runFrom_of_restrict {ok : σ → α → Prop} [∀ s a, Decidable (ok s a)] :
    ∀ (as : List α) {s t : σ}, (M.restrict ok).runFrom s as = some t → M.runFrom s as = some t := by
  intro as
  induction as with
  | nil => exact fun hrun => hrun
  | cons a as ih =>
      intro s t hrun
      simp only [runFrom_cons, Option.bind_eq_some_iff] at hrun ⊢
      obtain ⟨middle, hstep, hrest⟩ := hrun
      simp only [restrict] at hstep
      split at hstep
      next => exact ⟨middle, hstep, ih hrest⟩
      next => cases hstep

/-- A replay of the restricted machine is a guarded run. -/
theorem reachableWhere_of_run {ok : σ → α → Prop} [∀ s a, Decidable (ok s a)] {as : List α}
    {s : σ} (hrun : (M.restrict ok).run as = some s) : M.ReachableWhere ok s := by
  have hall := (M.restrict ok).reachable_of_run hrun
  clear hrun
  induction hall with
  | init => exact .init
  | @step s t a _ _ taken ih =>
      simp only [restrict] at taken
      split at taken
      next guard => exact .step ih guard taken
      next => cases taken

end Machine

end IpAugenblick.Lib
