/-
# The ready cache

A descriptor says with `present_in_ready_cache` that it is in a list and with `select`
in which.  The lists, their lengths and the descriptors agree as long as nobody resets
or re-associates a descriptor that is in a list: `ipaugenblick_reset_local_descriptor`
zeroes the links of the entry where it stands, `ipaugenblick_set_socket_select` leaves
it in the list of the selector before, and `ipaugenblick_close` takes it out only in
level mode.
-/

import IpAugenblick.Select.Client

namespace IpAugenblick

open Lib

/-- `local_ready_cache` of the selector `s` is `xs`, and the rest of the library knows. -/
structure CacheOf (c : SelectClient) (s : ℤ) (xs : List ℕ) : Prop where
  holds : c.localReadyCache.Holds s xs
  length : c.queueLength s = xs.length
  mem : ∀ i, i ∈ xs ↔
    (c.descr i).presentInReadyCache = true ∧ (c.descr i).select = s

/-- The lists and the descriptors agree. -/
structure CacheInv (c : SelectClient) : Prop where
  tame : c.wild = false
  lists : ∀ s, ∃ xs, CacheOf c s xs
  bounded : ∀ i, (c.descr i).presentInReadyCache = true → i < connectionPoolSize

variable {c c' : SelectClient} {s : ℤ} {xs : List ℕ} {i : ℕ}

theorem CacheOf.congr (h : CacheOf c s xs) (hcache : c'.localReadyCache = c.localReadyCache)
    (hlength : c'.queueLength = c.queueLength)
    (hpresent : ∀ i, (c'.descr i).presentInReadyCache = (c.descr i).presentInReadyCache)
    (hselect : ∀ i, (c'.descr i).select = (c.descr i).select) : CacheOf c' s xs where
  holds := hcache ▸ h.holds
  length := hlength ▸ h.length
  mem i := by rw [hpresent, hselect, h.mem]

theorem CacheInv.congr (h : CacheInv c) (hwild : c'.wild = c.wild)
    (hcache : c'.localReadyCache = c.localReadyCache) (hlength : c'.queueLength = c.queueLength)
    (hpresent : ∀ i, (c'.descr i).presentInReadyCache = (c.descr i).presentInReadyCache)
    (hselect : ∀ i, (c'.descr i).select = (c.descr i).select) : CacheInv c' where
  tame := hwild.trans h.tame
  lists s := (h.lists s).imp fun _ hxs => hxs.congr hcache hlength hpresent hselect
  bounded i hi := h.bounded i (hpresent i ▸ hi)

/-- A change of one descriptor that keeps what the cache looks at. -/
theorem CacheInv.setDescr (h : CacheInv c) {d : SocketDescr}
    (hpresent : d.presentInReadyCache = (c.descr i).presentInReadyCache)
    (hselect : d.select = (c.descr i).select) : CacheInv (c.setDescr i d) := by
  refine h.congr rfl rfl rfl ?_ ?_
  · intro j
    by_cases hji : j = i
    · subst hji
      simpa [SelectClient.setDescr] using hpresent
    · simp [SelectClient.setDescr, Function.update_of_ne hji]
  · intro j
    by_cases hji : j = i
    · subst hji
      simpa [SelectClient.setDescr] using hselect
    · simp [SelectClient.setDescr, Function.update_of_ne hji]

theorem CacheInv.bounded_setDescr (h : CacheInv c) {d : SocketDescr}
    (hd : d.presentInReadyCache = true → i < connectionPoolSize) (j : ℕ)
    (hj : ((c.setDescr i d).descr j).presentInReadyCache = true) : j < connectionPoolSize := by
  by_cases hji : j = i
  · subst hji
    simp only [SelectClient.setDescr, Function.update_self] at hj
    exact hd hj
  · simp only [SelectClient.setDescr, Function.update_of_ne hji] at hj
    exact h.bounded j hj

theorem CacheInv.setMask (h : CacheInv c) (i : ℕ) (mask : BitVec 32) :
    CacheInv (c.setDescr i { c.descr i with localMask := mask }) := h.setDescr rfl rfl

/-- A descriptor that is in no list. -/
theorem CacheOf.not_mem (h : CacheOf c s xs) (hi : (c.descr i).presentInReadyCache = false) :
    i ∉ xs := by
  intro hmem
  have hpresent := ((h.mem i).mp hmem).1
  rw [hi] at hpresent
  cases hpresent

/-- **Insert.** -/
theorem CacheInv.putToLocalCache (h : CacheInv c) (hbound : i < connectionPoolSize)
    (hi : (c.descr i).select = -1 → (c.descr i).localMask = 0 ∨ c.levelMode (-1) = false) :
    CacheInv (c.putToLocalCache i) := by
  unfold SelectClient.putToLocalCache
  dsimp only
  split_ifs with hmask hpresent hlevel hnone
  · exact h
  · exact h
  · rw [hnone] at hlevel
    rcases hi hnone with hzero | hedge
    · exact absurd hzero hmask
    · rw [hedge] at hlevel
      cases hlevel
  · replace hpresent := Bool.eq_false_iff.mpr hpresent
    obtain ⟨own, hown⟩ := h.lists (c.descr i).select
    refine ⟨h.tame, fun s => ?_, h.bounded_setDescr fun _ => hbound⟩
    by_cases hs : s = (c.descr i).select
    · subst hs
      refine ⟨own ++ [i], hown.holds.insertTail (hown.not_mem hpresent), ?_, ?_⟩
      · simp [hown.length]
      · intro j
        by_cases hji : j = i
        · simp [SelectClient.setDescr, hji]
        · simp [SelectClient.setDescr, hji, hown.mem]
    · obtain ⟨xs, hxs⟩ := h.lists s
      refine ⟨xs, hown.holds.insertTail_other hs hxs.holds (hxs.not_mem hpresent) ?_, ?_, ?_⟩
      · intro j hj hmem
        exact hs (((hxs.mem j).mp hj).2.symm.trans ((hown.mem j).mp hmem).2)
      · simp [Function.update_of_ne hs, hxs.length]
      · intro j
        by_cases hji : j = i
        · subst hji
          simp only [SelectClient.setDescr, Function.update_self, hxs.mem, hpresent]
          simp [Ne.symm hs]
        · simp [SelectClient.setDescr, Function.update_of_ne hji, hxs.mem]
  · exact h

/-- **Remove.** -/
theorem CacheInv.removeSocketFromCache (h : CacheInv c) (i : ℕ) :
    CacheInv (c.removeSocketFromCache i) := by
  unfold SelectClient.removeSocketFromCache
  dsimp only
  split_ifs with hcond hlevel
  · obtain ⟨own, hown⟩ := h.lists (c.descr i).select
    have hi : i ∈ own := (hown.mem i).mpr ⟨hcond.2, rfl⟩
    obtain ⟨cache, hremove, hholds, hothers⟩ := hown.holds.remove hi
    rw [hremove]
    refine ⟨h.tame, fun s => ?_, h.bounded_setDescr fun hfalse => by cases hfalse⟩
    by_cases hs : s = (c.descr i).select
    · subst hs
      refine ⟨own.erase i, hholds, ?_, ?_⟩
      · have hpos := List.length_pos_of_mem hi
        simp only [Function.update_self, hown.length, List.length_erase_of_mem hi]
        omega
      · intro j
        by_cases hji : j = i
        · subst hji
          simp [SelectClient.setDescr, hown.holds.nodup.mem_erase_iff]
        · simp [SelectClient.setDescr, hji, hown.holds.nodup.mem_erase_iff, hown.mem]
    · obtain ⟨xs, hxs⟩ := h.lists s
      refine ⟨xs, hothers s xs hs hxs.holds ?_, ?_, ?_⟩
      · intro j hj hmem
        exact hs (((hxs.mem j).mp hj).2.symm.trans ((hown.mem j).mp hmem).2)
      · simp [Function.update_of_ne hs, hxs.length]
      · intro j
        by_cases hji : j = i
        · subst hji
          simp [SelectClient.setDescr, hxs.mem, Ne.symm hs]
        · simp [SelectClient.setDescr, Function.update_of_ne hji, hxs.mem]
  · exact h
  · exact h

/-- A removal that goes through takes the mark away. -/
theorem CacheInv.present_remove (h : CacheInv c) (hselect : (c.descr i).select ≠ -1)
    (hlevel : (c.descr i).presentInReadyCache = true → c.levelMode (c.descr i).select = true) :
    ((c.removeSocketFromCache i).descr i).presentInReadyCache = false := by
  unfold SelectClient.removeSocketFromCache
  dsimp only
  split_ifs with hcond hmode
  · obtain ⟨own, hown⟩ := h.lists (c.descr i).select
    obtain ⟨cache, hremove, -⟩ := hown.holds.remove ((hown.mem i).mpr ⟨hcond.2, rfl⟩)
    rw [hremove]
    simp [SelectClient.setDescr]
  · exact absurd (hlevel hcond.2) hmode
  · simpa [hselect] using hcond

/-- What is in no list may be associated with any selector. -/
theorem CacheInv.setSelect (h : CacheInv c) (s : ℤ)
    (hi : (c.descr i).presentInReadyCache = true → s = (c.descr i).select) :
    CacheInv (c.setSelect i s) := by
  refine ⟨h.tame, fun k => ?_, h.bounded_setDescr fun hd => h.bounded i hd⟩
  obtain ⟨xs, hxs⟩ := h.lists k
  refine ⟨xs, hxs.holds, hxs.length, fun j => ?_⟩
  by_cases hji : j = i
  · subst hji
    simp only [SelectClient.setSelect, SelectClient.setDescr, Function.update_self, hxs.mem]
    constructor
    · rintro ⟨hpresent, hselect⟩
      exact ⟨hpresent, (hi hpresent).trans hselect⟩
    · rintro ⟨hpresent, hselect⟩
      exact ⟨hpresent, (hi hpresent).symm.trans hselect⟩
  · simp [SelectClient.setSelect, SelectClient.setDescr, hji, hxs.mem]

/-- What is in no list may have its links zeroed. -/
theorem CacheInv.resetLocalDescriptor (h : CacheInv c)
    (hi : (c.descr i).presentInReadyCache = false) : CacheInv (c.resetLocalDescriptor i) := by
  refine ⟨h.tame, fun k => ?_, h.bounded_setDescr fun hfalse => by cases hfalse⟩
  obtain ⟨xs, hxs⟩ := h.lists k
  refine ⟨xs, hxs.holds.zero (hxs.not_mem hi), hxs.length, fun j => ?_⟩
  by_cases hji : j = i
  · subst hji
    simp [SelectClient.resetLocalDescriptor, SelectClient.setDescr, hxs.mem, hi]
  · simp [SelectClient.resetLocalDescriptor, SelectClient.setDescr, hji, hxs.mem]

theorem CacheInv.updateLocalReadyCache (h : CacheInv c) (i : ℕ) (bit : ReadyBit) :
    CacheInv (c.updateLocalReadyCache i bit) := by
  unfold SelectClient.updateLocalReadyCache
  dsimp only
  split_ifs
  · exact h
  · exact h.setMask i _
  · exact (h.setMask i _).removeSocketFromCache i

theorem CacheInv.close (h : CacheInv c)
    (hi : (c.descr i).presentInReadyCache = true → c.levelMode (c.descr i).select = true) :
    CacheInv ((c.removeSocketFromCache i).setSelect i (-1)) := by
  by_cases hselect : (c.descr i).select = -1
  · have hsame : c.removeSocketFromCache i = c := by
      unfold SelectClient.removeSocketFromCache
      dsimp only
      rw [if_neg fun hcond => hcond.1 hselect]
    rw [hsame]
    exact h.setSelect (-1) fun _ => hselect.symm
  · refine (h.removeSocketFromCache i).setSelect (-1) fun hpresent => ?_
    rw [h.present_remove hselect hi] at hpresent
    cases hpresent

/-! ## Runs -/

/-- Reports do not touch the cache. -/
theorem CacheInv.fdsets (h : CacheInv c) {fdsets : ℕ → Option Fdset} :
    CacheInv { c with fdsets := fdsets } :=
  h.congr rfl rfl rfl (fun _ => rfl) fun _ => rfl

theorem CacheInv.report (h : CacheInv c) (address : Option ℕ) (mask : BitVec 32) (bit : ReadyBit)
    (idx : ℕ) : CacheInv (c.report address mask bit idx) := by
  obtain ⟨fdsets, heq⟩ := c.report_eq address mask bit idx
  rw [heq]
  exact h.fdsets

theorem CacheInv.selectEntry {call : SelectCall} (h : CacheInv c) (e : BitVec 32)
    (hrun : c.selectEntry call e = some c') : CacheInv c' := by
  unfold SelectClient.selectEntry at hrun
  dsimp only at hrun
  split at hrun
  · cases hrun
  · split at hrun
    · cases hrun
      exact h
    · rename_i hbound hselect
      have hput : CacheInv ((c.setDescr (readySocket e)
          { c.descr (readySocket e) with
            localMask := (c.descr (readySocket e)).localMask ||| e >>> 16 }).putToLocalCache
              (readySocket e)) := by
        refine (h.setMask _ _).putToLocalCache (Nat.lt_of_not_le hbound) fun hnone => ?_
        simp only [SelectClient.setDescr, Function.update_self] at hnone
        exact absurd hnone hselect
      split at hrun
      · cases hrun
        exact (hput.report _ _ _ _).report _ _ _ _
      · cases hrun
        exact (hput.report _ _ _ _).report _ _ _ _

theorem CacheInv.select {call : SelectCall} {ret : ℤ} {dequeued : List (BitVec 32)}
    (h : CacheInv c) (hrun : c.select call = .returned ret c' dequeued) : CacheInv c' := by
  refine (SelectClient.select_induct (P := fun d _ => CacheInv d) ?_ ?_ ?_ ?_ hrun).1
  · obtain ⟨fdsets, heq⟩ := c.clearReturned_eq call
    rw [heq]
    exact h.fdsets
  · intro d idx hd
    obtain ⟨fdsets, heq⟩ := d.selectCached_eq call idx
    rw [heq]
    exact hd.fdsets
  · exact fun d _ k entries hd => hd.congr rfl rfl rfl (fun _ => rfl) fun _ => rfl
  · exact fun d _ e d' hd hentry => hd.selectEntry e hentry

/-- The calls that leave the cache in order: a descriptor in a list is not given out
again, not associated with another selector and not closed in edge mode; and no fdset
is told of a ready descriptor without a selector while something stands where
`selectors[-1]` would have its mode. -/
def cacheStepOk (c : SelectClient) : SelectStep → Prop
  | .openSocket i _ | .accept i => (c.descr i).presentInReadyCache = false
  | .setSocketSelect i s =>
      (c.descr i).presentInReadyCache = true → s = (c.descr i).select
  | .close i =>
      (c.descr i).presentInReadyCache = true → c.levelMode (c.descr i).select = true
  | .fdset i _ =>
      (c.descr i).select = -1 → (c.descr i).localMask = 0 ∨ c.levelMode (-1) = false
  | _ => True

theorem CacheInv.perform {a : SelectStep} (h : CacheInv c) (hallowed : c.allowed a = true)
    (hok : cacheStepOk c a) (hrun : c.perform a = some c') : CacheInv c' := by
  cases a with
  | post selector e =>
      cases hrun
      exact h.congr rfl rfl rfl (fun _ => rfl) fun _ => rfl
  | openSocket sock parent =>
      cases hrun
      refine (h.resetLocalDescriptor hok).setSelect parent fun hpresent => ?_
      simp [SelectClient.resetLocalDescriptor, SelectClient.setDescr] at hpresent
  | accept sock =>
      cases hrun
      exact h.resetLocalDescriptor hok
  | setSocketSelect sock select =>
      cases hrun
      exact h.setSelect select hok
  | setSelectorMode select mode =>
      cases hrun
      split
      · exact h
      · exact h.congr rfl rfl rfl (fun _ => rfl) fun _ => rfl
  | fdzero address =>
      cases hrun
      exact h.fdsets
  | fdset sock address =>
      cases hrun
      simp only [SelectClient.allowed, Bool.and_eq_true, decide_eq_true_eq] at hallowed
      exact h.fdsets.putToLocalCache hallowed.1 hok
  | fdclear sock address =>
      cases hrun
      exact h.fdsets.removeSocketFromCache sock
  | select call =>
      simp only [SelectClient.perform] at hrun
      split at hrun
      · rename_i hselect
        cases hrun
        exact h.select hselect
      · cases hrun
      · cases hrun
  | sendFailed sock | receiveFailed sock =>
      cases hrun
      exact h.updateLocalReadyCache sock _
  | shutdown sock =>
      cases hrun
      exact h.removeSocketFromCache sock
  | close sock =>
      cases hrun
      exact h.close hok

theorem cacheInv_init (stray : Bool) : CacheInv (selectMachine stray).init where
  tame := rfl
  lists s := ⟨[], .init s, rfl, fun i => by simp [selectMachine]⟩
  bounded i hi := by simp [selectMachine] at hi

theorem cacheInv_step {stray : Bool} {a : SelectStep} (h : CacheInv c) (hok : cacheStepOk c a)
    (hstep : (selectMachine stray).step c a = some c') : CacheInv c' := by
  obtain ⟨henabled, hrun⟩ := selectMachine_step.mp hstep
  exact h.perform henabled.2 hok hrun

theorem cacheInv_of_reachable {stray : Bool}
    (h : (selectMachine stray).ReachableWhere cacheStepOk c) : CacheInv c := by
  refine Machine.invariant_of_step _ (cacheInv_init stray) ?_ h
  intro d a d' hinv hok hstep
  exact cacheInv_step hinv hok hstep

/-- What is said of the cache: for every selector, the walk through its list ends and
meets no descriptor twice, `queue_length` is its length, and a descriptor is in it just
when it says so. -/
def CacheRepresented (c : SelectClient) : Prop :=
  ∀ s, IsSelector s → ∃ xs,
    Linked c.localReadyCache.next (c.localReadyCache.first s) xs ∧ xs.Nodup ∧
      c.queueLength s = xs.length ∧
      ∀ i, i ∈ xs ↔ (c.descr i).presentInReadyCache = true ∧ (c.descr i).select = s

/-- **The ready cache.**  It is in order in every run whose calls keep to the condition. -/
theorem ready_cache_represented {stray : Bool}
    (h : (selectMachine stray).ReachableWhere cacheStepOk c) : CacheRepresented c := by
  intro s _
  obtain ⟨xs, hxs⟩ := (cacheInv_of_reachable h).lists s
  exact ⟨xs, hxs.holds.linked, hxs.holds.nodup, hxs.length, hxs.mem⟩

instance decidableCacheStepOk (c : SelectClient) : ∀ a, Decidable (cacheStepOk c a)
  | .openSocket i _ | .accept i =>
      inferInstanceAs (Decidable ((c.descr i).presentInReadyCache = false))
  | .setSocketSelect i s => inferInstanceAs (Decidable
      ((c.descr i).presentInReadyCache = true → s = (c.descr i).select))
  | .close i => inferInstanceAs (Decidable
      ((c.descr i).presentInReadyCache = true → c.levelMode (c.descr i).select = true))
  | .fdset i _ => inferInstanceAs (Decidable
      ((c.descr i).select = -1 → (c.descr i).localMask = 0 ∨ c.levelMode (-1) = false))
  | .post _ _ | .setSelectorMode _ _ | .fdzero _ | .fdclear _ _ | .select _ | .sendFailed _
  | .receiveFailed _ | .shutdown _ => .isTrue trivial

/-- A socket becomes ready and a select on a selector in level mode learns of it. -/
def becomesReady : List SelectStep :=
  [.setSelectorMode 0 true, .openSocket 3 0, .fdzero 7, .fdset 3 7,
    .post 0 (ringidxReadyMask 3 .readable), .select ⟨0, some 7, none, none, .zero, [⟨[], false⟩]⟩]

/-- The socket stays in the list of the selector that it leaves. -/
theorem ready_cache_not_represented :
    ¬ ∀ c, (selectMachine false).Reachable c → CacheRepresented c := by
  intro h
  have hrun : ((selectMachine false).run (becomesReady ++ [.setSocketSelect 3 1])).map
      (fun c => (c.localReadyCache.first 0, (c.descr 3).select)) = some (some 3, 1) := by
    decide +kernel
  obtain ⟨c, hrun, hc⟩ := Option.map_eq_some_iff.mp hrun
  obtain ⟨hfirst, hselect⟩ := Prod.mk.inj hc
  obtain ⟨xs, hlinked, -, -, hmem⟩ :=
    h c (Machine.reachable_of_run _ hrun) 0 (by decide)
  have hin : 3 ∈ xs := by
    cases xs with
    | nil =>
        rw [hfirst] at hlinked
        cases hlinked
    | cons x xs =>
        obtain rfl : 3 = x := Option.some.inj (hfirst.symm.trans hlinked.1)
        exact List.mem_cons_self
  have := ((hmem 3).mp hin).2
  rw [hselect] at this
  cases this

theorem ready_cache_represented_ready :
    ∃ c, (selectMachine false).ReachableWhere cacheStepOk c ∧
      (c.descr 3).presentInReadyCache = true ∧ CacheRepresented c := by
  have hrun : (((selectMachine false).restrict cacheStepOk).run becomesReady).map
      (fun c => (c.descr 3).presentInReadyCache) = some true := by
    decide +kernel
  obtain ⟨c, hrun, hc⟩ := Option.map_eq_some_iff.mp hrun
  have hreach := Machine.reachableWhere_of_run _ hrun
  exact ⟨c, hreach, hc, ready_cache_represented hreach⟩

end IpAugenblick
