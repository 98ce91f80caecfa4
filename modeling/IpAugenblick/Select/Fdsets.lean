/-
# The results of a select

An fdset has its results twice: as flags, which keep `ipaugenblick_update_fdset` from
counting a socket again, and as an array.  `ipaugenblick_select` clears the flags
through the array of the call before.  `ipaugenblick_fdclear` clears a flag on its own,
so between calls the flags may say less than the array, never more; at the end of a
call they say the same.
-/

import IpAugenblick.Select.Client

namespace IpAugenblick

open Lib

namespace Fdset

variable {f : Fdset} {i idx : ℕ}

/-- The first `returned_idx` elements of `returned_sockets`. -/
def returned (f : Fdset) : List ℕ := (List.range f.returnedIdx).map f.returnedSockets

/-- What the caller of `ipaugenblick_select` relies on. -/
structure WellFormed (f : Fdset) : Prop where
  distinct : f.returned.Nodup
  inRange : ∀ i ∈ f.returned, i < connectionPoolSize
  interested : ∀ i ∈ f.returned, f.interestedFlags i = true
  flags : ∀ i, f.returnedFlags i = true ↔ i ∈ f.returned
  fits : f.returnedIdx ≤ connectionPoolSize

/-- An fdset between two calls. -/
structure Kept (f : Fdset) : Prop where
  distinct : f.returned.Nodup
  inRange : ∀ i ∈ f.returned, i < connectionPoolSize
  flags : ∀ i, f.returnedFlags i = true → i ∈ f.returned
  interest : ∀ i, f.interestedFlags i = true → i < connectionPoolSize

/-- An fdset that a select is working on. -/
structure Exact (f : Fdset) : Prop extends f.Kept where
  interested : ∀ i ∈ f.returned, f.interestedFlags i = true
  flagged : ∀ i ∈ f.returned, f.returnedFlags i = true

/-- Distinct sockets fit the array. -/
theorem Kept.fits (h : f.Kept) : f.returnedIdx ≤ connectionPoolSize := by
  have hsub : f.returned ⊆ List.range connectionPoolSize :=
    fun i hi => List.mem_range.mpr (h.inRange i hi)
  have hle := (h.distinct.subperm hsub).length_le
  simpa [returned] using hle

theorem Exact.wellFormed (h : f.Exact) : f.WellFormed where
  distinct := h.distinct
  inRange := h.inRange
  interested := h.interested
  flags i := ⟨h.flags i, h.flagged i⟩
  fits := h.fits

theorem Kept.fdzero : Kept .fdzero where
  distinct := List.nodup_nil
  inRange _ hi := by cases hi
  flags _ hi := by cases hi
  interest _ hi := by cases hi

theorem Kept.fdset (h : f.Kept) (hi : i < connectionPoolSize) : (f.fdset i).Kept where
  distinct := h.distinct
  inRange := h.inRange
  flags := h.flags
  interest j hj := by
    by_cases hji : j = i
    · exact hji ▸ hi
    · simp only [Fdset.fdset, Function.update_of_ne hji] at hj
      exact h.interest j hj

/-- A flag that is cleared is cleared; the array keeps the socket. -/
theorem Kept.fdclear (h : f.Kept) (i : ℕ) : (f.fdclear i).Kept where
  distinct := h.distinct
  inRange := h.inRange
  flags j hj := by
    by_cases hji : j = i
    · simp [Fdset.fdclear, hji] at hj
    · simp only [Fdset.fdclear, Function.update_of_ne hji] at hj
      exact h.flags j hj
  interest j hj := by
    by_cases hji : j = i
    · simp [Fdset.fdclear, hji] at hj
    · simp only [Fdset.fdclear, Function.update_of_ne hji] at hj
      exact h.interest j hj

theorem clearFlags_eq (f : Fdset) (n : ℕ) :
    f.clearFlags n i =
      (f.returnedFlags i && !decide (i ∈ (List.range n).map f.returnedSockets)) := by
  induction n with
  | zero => simp [clearFlags]
  | succ n ih =>
      unfold clearFlags
      by_cases hi : i = f.returnedSockets n
      · simp [hi, List.range_succ]
      · rw [Function.update_of_ne hi, ih]
        simp [List.range_succ, hi]

/-- The array of the call before names every flag, so all are cleared. -/
theorem Kept.clearReturned (h : f.Kept) : f.clearReturned.Exact where
  distinct := List.nodup_nil
  inRange _ hi := by cases hi
  flags i hi := by
    exfalso
    simp only [Fdset.clearReturned, clearFlags_eq, Bool.and_eq_true, Bool.not_eq_true',
      decide_eq_false_iff_not] at hi
    exact hi.2 (h.flags i hi.1)
  interest := h.interest
  interested _ hi := by cases hi
  flagged _ hi := by cases hi

theorem returned_append (f : Fdset) (idx : ℕ) :
    ({ f with
      returnedSockets := Function.update f.returnedSockets f.returnedIdx idx
      returnedFlags := Function.update f.returnedFlags idx true
      returnedIdx := f.returnedIdx + 1 } : Fdset).returned = f.returned ++ [idx] := by
  simp only [returned, List.range_succ, List.map_append, List.map_cons, List.map_nil,
    Function.update_self, List.append_cancel_right_eq, List.map_inj_left]
  intro j hj
  exact Function.update_of_ne (List.mem_range.mp hj).ne _ _

/-- **One result.**  The flag keeps a socket from being counted twice. -/
theorem Exact.updateFdset (h : f.Exact) (idx : ℕ) : (f.updateFdset idx).Exact := by
  unfold Fdset.updateFdset
  split_ifs with hinterest hflag
  · exact h
  · have hnew : idx ∉ f.returned := fun hmem => hflag (h.flagged idx hmem)
    refine ⟨⟨?_, ?_, ?_, h.interest⟩, ?_, ?_⟩
    · rw [returned_append]
      exact List.nodup_append.mpr ⟨h.distinct, List.nodup_singleton idx, by
        rintro j hj k hk rfl
        exact hnew (List.mem_singleton.mp hk ▸ hj)⟩
    all_goals rw [returned_append]
    · intro j hj
      rcases List.mem_append.mp hj with hj | hj
      · exact h.inRange j hj
      · rw [List.mem_singleton.mp hj]
        exact h.interest idx hinterest
    · intro j hj
      by_cases hji : j = idx
      · simp [hji]
      · simp only [Function.update_of_ne hji] at hj
        exact List.mem_append_left _ (h.flags j hj)
    · intro j hj
      rcases List.mem_append.mp hj with hj | hj
      · exact h.interested j hj
      · rw [List.mem_singleton.mp hj]
        exact hinterest
    · intro j hj
      by_cases hji : j = idx
      · simp [hji]
      · simp only [Function.update_of_ne hji]
        exact h.flagged j (by simpa [hji] using hj)
  · exact h

end Fdset

def SelectCall.fdsets (call : SelectCall) : List (Option ℕ) :=
  [call.excfdset, call.writefdset, call.readfdset]

/-- All fdsets are kept, and those at the addresses are exact. -/
def WorkingOn (addresses : List (Option ℕ)) (fdsets : ℕ → Option Fdset) : Prop :=
  ∀ a f, fdsets a = some f → f.Kept ∧ (some a ∈ addresses → f.Exact)

variable {call : SelectCall} {c c' : SelectClient} {addresses : List (Option ℕ)}
  {address : Option ℕ} {change : Fdset → Fdset} {f : Fdset} {a : ℕ}

theorem SelectClient.fdsets_modifyFdset (h : (c.modifyFdset address change).fdsets a = some f) :
    (address = some a ∧ ∃ g, c.fdsets a = some g ∧ change g = f) ∨
      (address ≠ some a ∧ c.fdsets a = some f) := by
  cases address with
  | none => exact .inr ⟨by simp, h⟩
  | some b =>
      by_cases hba : a = b
      · subst hba
        simp only [modifyFdset, Function.update_self, Option.map_eq_some_iff] at h
        exact .inl ⟨rfl, h⟩
      · simp only [modifyFdset, Function.update_of_ne hba] at h
        exact .inr ⟨fun heq => hba (Option.some.inj heq).symm, h⟩

theorem WorkingOn.clearReturned (h : WorkingOn addresses c.fdsets) (address : Option ℕ) :
    WorkingOn (address :: addresses) (c.modifyFdset address .clearReturned).fdsets := by
  intro a f hf
  rcases SelectClient.fdsets_modifyFdset hf with ⟨-, g, hg, rfl⟩ | ⟨hne, hf⟩
  · have hexact := (h a g hg).1.clearReturned
    exact ⟨hexact.toKept, fun _ => hexact⟩
  · refine ⟨(h a f hf).1, fun hmem => (h a f hf).2 ?_⟩
    exact (List.mem_cons.mp hmem).resolve_left fun heq => hne heq.symm

theorem WorkingOn.report (h : WorkingOn addresses c.fdsets) (address : Option ℕ)
    (hmem : address ∈ addresses) (mask : BitVec 32) (bit : ReadyBit) (idx : ℕ) :
    WorkingOn addresses (c.report address mask bit idx).fdsets := by
  unfold SelectClient.report
  split
  · intro a f hf
    rcases SelectClient.fdsets_modifyFdset hf with ⟨rfl, g, hg, rfl⟩ | ⟨-, hf⟩
    · have hexact := ((h a g hg).2 hmem).updateFdset idx
      exact ⟨hexact.toKept, fun _ => hexact⟩
    · exact h a f hf
  · exact h

theorem WorkingOn.selectCached (h : WorkingOn call.fdsets c.fdsets) (idx : ℕ) :
    WorkingOn call.fdsets (c.selectCached call idx).fdsets := by
  have hread := h.report call.readfdset (by simp [SelectCall.fdsets])
    (c.descr idx).localMask .readable idx
  have hwrite := hread.report call.writefdset (by simp [SelectCall.fdsets])
    (c.descr idx).localMask .writable idx
  exact hwrite.report _ (by simp [SelectCall.fdsets]) _ _ _

theorem WorkingOn.selectEntry (h : WorkingOn call.fdsets c.fdsets) (e : BitVec 32)
    (hrun : c.selectEntry call e = some c') : WorkingOn call.fdsets c'.fdsets := by
  unfold SelectClient.selectEntry at hrun
  dsimp only at hrun
  split at hrun
  · cases hrun
  · split at hrun
    · cases hrun
      exact h
    · generalize hput : (c.setDescr _ _).putToLocalCache _ = d at hrun
      have hd : d.fdsets = c.fdsets := by
        rw [← hput, SelectClient.putToLocalCache_fdsets]
        rfl
      have hread : WorkingOn call.fdsets
          (d.report call.readfdset (e >>> 16) .readable (readySocket e)).fdsets :=
        WorkingOn.report (hd ▸ h) _ (by simp [SelectCall.fdsets]) _ _ _
      split at hrun
      · cases hrun
        exact hread.report _ (by simp [SelectCall.fdsets]) _ _ _
      · cases hrun
        exact hread.report _ (by simp [SelectCall.fdsets]) _ _ _

/-- What a call finds kept, it leaves exact in its own fdsets; a count it returns is
theirs. -/
theorem WorkingOn.select (h : WorkingOn [] c.fdsets) {ret : ℤ} {dequeued : List (BitVec 32)}
    (hrun : c.select call = .returned ret c' dequeued) :
    WorkingOn call.fdsets c'.fdsets ∧ (ret = -1 ∨ ret = c'.selectRet call) := by
  refine SelectClient.select_induct (P := fun c _ => WorkingOn call.fdsets c.fdsets)
    ?_ ?_ ?_ ?_ hrun
  · have hread := h.clearReturned call.readfdset
    exact (hread.clearReturned call.writefdset).clearReturned call.excfdset
  · exact fun _ idx h => h.selectCached idx
  · exact fun _ _ _ _ h => h
  · exact fun _ _ e _ h hentry => h.selectEntry e hentry

/-- A select keeps every fdset where it is. -/
theorem SelectClient.isSome_fdsets_modifyFdset (c : SelectClient) (address : Option ℕ)
    (change : Fdset → Fdset) (a : ℕ) :
    ((c.modifyFdset address change).fdsets a).isSome = (c.fdsets a).isSome := by
  cases address with
  | none => rfl
  | some b =>
      by_cases hab : a = b
      · simp [SelectClient.modifyFdset, hab]
      · simp [SelectClient.modifyFdset, Function.update_of_ne hab]

theorem SelectClient.isSome_fdsets_report (c : SelectClient) (address : Option ℕ)
    (mask : BitVec 32) (bit : ReadyBit) (idx a : ℕ) :
    ((c.report address mask bit idx).fdsets a).isSome = (c.fdsets a).isSome := by
  unfold SelectClient.report
  split
  · exact c.isSome_fdsets_modifyFdset address _ a
  · rfl

theorem SelectClient.isSome_fdsets_selectEntry (e : BitVec 32)
    (hrun : c.selectEntry call e = some c') (a : ℕ) :
    (c'.fdsets a).isSome = (c.fdsets a).isSome := by
  unfold SelectClient.selectEntry at hrun
  dsimp only at hrun
  split at hrun
  · cases hrun
  · split at hrun
    · cases hrun
      rfl
    · split at hrun
      all_goals
        cases hrun
        rw [isSome_fdsets_report, isSome_fdsets_report, putToLocalCache_fdsets]
        rfl

theorem SelectClient.isSome_fdsets_select {ret : ℤ} {dequeued : List (BitVec 32)}
    (hrun : c.select call = .returned ret c' dequeued) (a : ℕ) :
    (c'.fdsets a).isSome = (c.fdsets a).isSome := by
  refine (select_induct (P := fun d _ => (d.fdsets a).isSome = (c.fdsets a).isSome) ?_ ?_ ?_ ?_
    hrun).1
  · unfold SelectClient.clearReturned
    rw [isSome_fdsets_modifyFdset, isSome_fdsets_modifyFdset, isSome_fdsets_modifyFdset]
  · intro d idx h
    unfold SelectClient.selectCached
    dsimp only
    rw [isSome_fdsets_report, isSome_fdsets_report, isSome_fdsets_report, h]
  · exact fun _ _ _ _ h => h
  · exact fun d _ e d' h hentry => (d.isSome_fdsets_selectEntry e hentry a).trans h

theorem WorkingOn.kept (h : WorkingOn addresses c.fdsets) : WorkingOn [] c.fdsets :=
  fun a f hf => ⟨(h a f hf).1, fun hmem => by cases hmem⟩

/-- An fdset that is changed stays kept when the change keeps it. -/
theorem WorkingOn.modify (h : WorkingOn [] c.fdsets) (address : Option ℕ)
    (hchange : ∀ f : Fdset, f.Kept → (change f).Kept) :
    WorkingOn [] (c.modifyFdset address change).fdsets := by
  intro a f hf
  rcases SelectClient.fdsets_modifyFdset hf with ⟨-, g, hg, rfl⟩ | ⟨-, hf⟩
  · exact ⟨hchange g (h a g hg).1, fun hmem => by cases hmem⟩
  · exact h a f hf

theorem WorkingOn.perform (h : WorkingOn [] c.fdsets) {a : SelectStep}
    (hallowed : c.allowed a = true) (hrun : c.perform a = some c') : WorkingOn [] c'.fdsets := by
  cases a with
  | post selector e | openSocket sock parent | accept sock | setSocketSelect sock select =>
      cases hrun
      exact h
  | setSelectorMode select mode =>
      cases hrun
      split <;> exact h
  | fdzero address =>
      cases hrun
      intro a f hf
      by_cases ha : a = address
      · simp only [ha, Function.update_self, Option.some.injEq] at hf
        exact ⟨hf ▸ Fdset.Kept.fdzero, fun hmem => by cases hmem⟩
      · simp only [Function.update_of_ne ha] at hf
        exact h a f hf
  | fdset sock address =>
      cases hrun
      rw [SelectClient.putToLocalCache_fdsets]
      simp only [SelectClient.allowed, Bool.and_eq_true, decide_eq_true_eq] at hallowed
      exact h.modify _ fun f hf => hf.fdset hallowed.1
  | fdclear sock address =>
      cases hrun
      rw [SelectClient.removeSocketFromCache_fdsets]
      exact h.modify _ fun f hf => hf.fdclear sock
  | select call =>
      simp only [SelectClient.perform] at hrun
      split at hrun
      · rename_i hselect
        cases hrun
        exact (h.select hselect).1.kept
      · cases hrun
      · cases hrun
  | sendFailed sock | receiveFailed sock =>
      cases hrun
      rw [SelectClient.updateLocalReadyCache_fdsets]
      exact h
  | shutdown sock =>
      cases hrun
      rw [SelectClient.removeSocketFromCache_fdsets]
      exact h
  | close sock =>
      cases hrun
      show WorkingOn [] (c.removeSocketFromCache sock).fdsets
      rw [SelectClient.removeSocketFromCache_fdsets]
      exact h

theorem SelectClient.enabled.fdset (h : c.enabled (.select call)) {a : ℕ}
    (ha : some a ∈ call.fdsets) : (c.fdsets a).isSome = true := by
  obtain ⟨-, h⟩ := h
  simp only [SelectClient.allowed, Bool.and_eq_true] at h
  simp only [SelectCall.fdsets, List.mem_cons, List.not_mem_nil, or_false] at ha
  rcases ha with heq | heq | heq
  · have := h.2
    rwa [← heq] at this
  · have := h.1.2
    rwa [← heq] at this
  · have := h.1.1.2
    rwa [← heq] at this

theorem workingOn_of_reachable {stray : Bool} (h : (selectMachine stray).Reachable c) :
    WorkingOn [] c.fdsets := by
  let inv := fun c : SelectClient => WorkingOn [] c.fdsets
  refine @Machine.invariant_of_step _ _ (selectMachine stray) _ inv ?_ ?_ c h
  · intro a f hf
    cases hf
  · intro c a c' h _ hstep
    obtain ⟨henabled, hrun⟩ := selectMachine_step.mp hstep
    exact h.perform henabled.2 hrun

/-- **The results are well formed.**  In every run an fdset never has more results than
its array has room for; and when a select returns a positive value, the results of the
fdsets it was given are distinct sockets of interest, the flags are those of the
results, and the value is their number. -/
theorem select_results_well_formed {stray : Bool} (hreach : (selectMachine stray).Reachable c) :
    (∀ a f, c.fdsets a = some f → f.returnedIdx ≤ connectionPoolSize) ∧
      ∀ (call : SelectCall) (ret : ℤ) (c' : SelectClient) (dequeued : List (BitVec 32)),
        c.enabled (.select call) → c.select call = .returned ret c' dequeued → 0 < ret →
        (∀ a, some a ∈ call.fdsets → ∃ f, c'.fdsets a = some f ∧ f.WellFormed) ∧
          ret = c'.returnedIdx call.readfdset + c'.returnedIdx call.writefdset +
            c'.returnedIdx call.excfdset := by
  have hkept := workingOn_of_reachable hreach
  refine ⟨fun a f hf => (hkept a f hf).1.fits, ?_⟩
  intro call ret c' dequeued henabled hrun hpos
  obtain ⟨hwork, hret⟩ := hkept.select hrun
  constructor
  · intro a ha
    have hsome := henabled.fdset ha
    rw [← SelectClient.isSome_fdsets_select hrun] at hsome
    obtain ⟨f, hf⟩ := Option.isSome_iff_exists.mp hsome
    exact ⟨f, hf, ((hwork a f hf).2 ha).wellFormed⟩
  rcases hret with rfl | rfl
  · omega
  · simp [SelectClient.selectRet]

/-- A select that watches one fdset for reading. -/
def watchReading : SelectCall := ⟨0, some 7, none, none, .zero, [⟨[], false⟩]⟩

theorem select_results_well_formed_reading :
    ∃ c c' f dequeued, (selectMachine false).Reachable c ∧
      c.select watchReading = .returned 1 c' dequeued ∧ c'.fdsets 7 = some f ∧ f.WellFormed := by
  have hrun : ((selectMachine false).run
      [.openSocket 3 0, .fdzero 7, .fdset 3 7, .post 0 (ringidxReadyMask 3 .readable),
        .post 0 (ringidxReadyMask 3 .readable)]).map
        (fun c => (decide (c.enabled (.select watchReading)), (c.select watchReading).ret)) =
      some (true, some 1) := by decide +kernel
  obtain ⟨c, hrun, hc⟩ := Option.map_eq_some_iff.mp hrun
  obtain ⟨henabled, hret⟩ := Prod.mk.inj hc
  obtain ⟨c', dequeued, hselect⟩ := SelectOutcome.of_ret hret
  have hreach := Machine.reachable_of_run _ hrun
  obtain ⟨f, hf, hwell⟩ := ((select_results_well_formed hreach).2 watchReading 1 c' dequeued
    (of_decide_eq_true henabled) hselect (by decide)).1 7 (by decide)
  exact ⟨c, c', f, dequeued, hreach, hselect, hf, hwell⟩

end IpAugenblick
