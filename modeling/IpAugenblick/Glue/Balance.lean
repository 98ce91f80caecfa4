/-
# References of the ready queues

The callbacks of `app_glue.c` take a reference on the `sk` of a socket that they put in a list,
and the processing loops drop it when they have handled the socket.
`app_glue_close_socket` and the four `app_glue_get_next_...` functions take a socket out of its
lists and drop nothing.  References and lists balance in the runs where these find nothing to
take out and the closed list never frees a socket that is in another list.
-/

import IpAugenblick.Glue.Queues
import Mathlib.Tactic.Ring

namespace IpAugenblick

open Lib

/-- 1 for a socket in the list. -/
def GlueState.isIn (s : GlueState) (q : GlueList) (k : ℕ) : ℤ := if k ∈ s.list q then 1 else 0

/-- The number of lists that a socket is in. -/
def GlueState.listsOf (s : GlueState) (k : ℕ) : ℤ :=
  s.isIn .read k + s.isIn .write k + s.isIn .accept k + s.isIn .closed k

/-- 1 for the socket that a bounded loop has taken out of its list and not yet let go. -/
def GluePc.inHand : GluePc → ℕ → ℤ
  | .rxUser j _ _, k => if k = j then 1 else 0
  | .txUser j _ _, k => if k = j then 1 else 0
  | _, _ => 0

/-- Between two operations a socket has a reference for each list it is in. -/
def GlueState.Balanced (s : GlueState) : Prop :=
  s.pc = .idle → ∀ k, (s.sock k).holds = s.listsOf k

/-- Nothing is taken out of a list without its reference, and nothing is freed in one. -/
def balanceOk (s : GlueState) : GlueStep → Prop
  | .advance => ¬ s.freesQueued
  | .closeSocket k => ∀ q, k ∉ s.list q
  | .getNext q => s.list q = []
  | _ => True

/-! ## One list at a time -/

namespace GlueState

variable {s t : GlueState} {q : GlueList} {j k : ℕ}

theorem listsOf_congr (h : t.list = s.list) (j : ℕ) : t.listsOf j = s.listsOf j := by
  unfold listsOf isIn
  rw [h]

/-- Only one list has changed. -/
theorem listsOf_change (h : ∀ r, r ≠ q → t.list r = s.list r) (j : ℕ) :
    t.listsOf j = s.listsOf j + (t.isIn q j - s.isIn q j) := by
  have hother : ∀ r, r ≠ q → t.isIn r j = s.isIn r j := by
    intro r hr
    unfold isIn
    rw [h r hr]
  unfold listsOf
  cases q with
  | read =>
      rw [hother .write (by decide), hother .accept (by decide), hother .closed (by decide)]
      ring
  | write =>
      rw [hother .read (by decide), hother .accept (by decide), hother .closed (by decide)]
      ring
  | accept =>
      rw [hother .read (by decide), hother .write (by decide), hother .closed (by decide)]
      ring
  | closed =>
      rw [hother .read (by decide), hother .write (by decide), hother .accept (by decide)]
      ring

theorem listsOf_insertTail (s : GlueState) (hk : k ∉ s.list q) (j : ℕ) :
    (s.insertTail q k).listsOf j = s.listsOf j + if j = k then 1 else 0 := by
  have hother : ∀ r, r ≠ q → (s.insertTail q k).list r = s.list r := by
    intro r hr
    rw [list_insertTail, if_neg hr]
  rw [listsOf_change hother]
  unfold isIn
  rw [list_insertTail, if_pos rfl]
  by_cases hjk : j = k
  · subst hjk
    simp [hk]
  · simp [hjk]

theorem listsOf_remove (s : GlueState) (hnodup : (s.list q).Nodup) (hk : k ∈ s.list q) (j : ℕ) :
    (s.remove q k).listsOf j = s.listsOf j - if j = k then 1 else 0 := by
  have hother : ∀ r, r ≠ q → (s.remove q k).list r = s.list r := by
    intro r hr
    rw [list_remove, if_neg hr]
  rw [listsOf_change hother]
  unfold isIn
  rw [list_remove, if_pos rfl]
  by_cases hjk : j = k
  · subst hjk
    simp [hk, hnodup.mem_erase_iff, sub_eq_add_neg]
  · simp [hjk, hnodup.mem_erase_iff]

theorem listsOf_eq_zero (h : ∀ q, k ∉ s.list q) : s.listsOf k = 0 := by
  simp [listsOf, isIn, h]

theorem holds_hold (s : GlueState) (j k : ℕ) (d : ℤ) :
    ((s.hold k d).sock j).holds = (s.sock j).holds + if j = k then d else 0 := by
  unfold hold
  by_cases hjk : j = k
  · subst hjk
    simp
  · simp [hjk]

/-- What is not a hold or a put leaves the references alone. -/
theorem holds_setSock (s : GlueState) (j k : ℕ) (f : GlueSock → GlueSock)
    (hf : ∀ m, (f m).holds = m.holds) : ((s.setSock k f).sock j).holds = (s.sock j).holds := by
  by_cases hjk : j = k
  · subst hjk
    rw [sock_setSock_self, hf]
  · rw [sock_setSock_of_ne _ hjk]

theorem holds_insertTail (s : GlueState) (q : GlueList) (j k : ℕ) :
    ((s.insertTail q k).sock j).holds = (s.sock j).holds :=
  s.holds_setSock j k (fun m => { m with present := Function.update m.present q true }) fun _ => rfl

theorem holds_remove (s : GlueState) (q : GlueList) (j k : ℕ) :
    ((s.remove q k).sock j).holds = (s.sock j).holds :=
  s.holds_setSock j k (fun m => { m with present := Function.update m.present q false })
    fun _ => rfl

theorem holds_kernelClose (s : GlueState) (j k : ℕ) :
    ((s.kernelClose k).sock j).holds = (s.sock j).holds :=
  s.holds_setSock j k (fun m => { m with allocated := false }) fun _ => rfl

/-- Closing a socket that is in no list is `kernel_close`. -/
theorem closeSocket_eq (h : ListsInv s) (hk : ∀ q, k ∉ s.list q) :
    s.appGlueCloseSocket k = s.kernelClose k := by
  have hleave : ∀ q, s.leave q k = s := by
    intro q
    unfold leave
    rw [if_neg]
    rw [← h.mem_iff]
    exact hk q
  unfold appGlueCloseSocket
  rw [hleave, hleave, hleave, hleave]

end GlueState

/-! ## The balance -/

/-- A socket has a reference for each list it is in and for the loop that handles it. -/
structure BalanceInv (s : GlueState) : Prop where
  balance : ∀ k, (s.sock k).holds = s.listsOf k + s.pc.inHand k
  /-- A socket is not freed while its callback runs. -/
  hand : ∀ k, s.pc.inHand k ≠ 0 → (s.sock k).allocated = true

namespace BalanceInv

variable {s t : GlueState} {q : GlueList} {k : ℕ}

/-- The references have changed with the lists and the loop. -/
theorem change (h : BalanceInv s)
    (hholds : ∀ j, (t.sock j).holds = (s.sock j).holds + (t.listsOf j - s.listsOf j) +
      (t.pc.inHand j - s.pc.inHand j))
    (hhand : ∀ j, t.pc.inHand j ≠ 0 → (t.sock j).allocated = true) : BalanceInv t := by
  refine ⟨fun j => ?_, hhand⟩
  rw [hholds, h.balance]
  ring

/-- The loop moves on and has no socket in its hands, before or after. -/
theorem movePc (h : BalanceInv s) (hlist : t.list = s.list) (hsock : t.sock = s.sock)
    (hbefore : ∀ j, s.pc.inHand j = 0) (hafter : ∀ j, t.pc.inHand j = 0) : BalanceInv t := by
  refine h.change (fun j => ?_) fun j hj => absurd (hafter j) hj
  rw [hsock, GlueState.listsOf_congr hlist, hbefore, hafter]
  ring

/-- A callback of the stack: one reference, one list. -/
theorem enter (h : BalanceInv s) (hlists : ListsInv s) (q : GlueList) (k : ℕ) :
    BalanceInv (s.enter q k) := by
  have hpc := s.pc_enter q k
  unfold GlueState.enter at hpc ⊢
  split
  next => exact h
  next hnot =>
      rw [if_neg hnot] at hpc
      rw [not_or, Bool.not_eq_true] at hnot
      have hnew : k ∉ (s.hold k 1).list q := by
        show k ∉ s.list q
        rw [hlists.mem_iff, hnot.2]
        exact Bool.false_ne_true
      obtain ⟨hlist, hsock, -⟩ := ((s.hold k 1).insertTail q k).count_frame q (· + 1)
      refine h.change (fun j => ?_) fun j hj => ?_
      · have hbefore : (s.hold k 1).listsOf j = s.listsOf j := rfl
        rw [hsock, hpc, GlueState.listsOf_congr hlist, GlueState.listsOf_insertTail _ hnew,
          GlueState.holds_insertTail, GlueState.holds_hold, hbefore]
        ring
      · rw [hpc] at hj
        rw [hsock]
        have hsame : (((s.hold k 1).insertTail q k).sock j).allocated =
            ((s.hold k 1).sock j).allocated :=
          (s.hold k 1).allocated_setPresent (fun f => Function.update f q true) j k
        rw [hsame, (s.sock_hold j k 1).2]
        exact h.hand j hj

/-- A new socket has no references and is in no list. -/
theorem create (h : BalanceInv s) (hlists : ListsInv s) (hk : (s.sock k).allocated = false) :
    BalanceInv (s.setSock k fun _ => ⟨true, fun _ => false, 0⟩) := by
  have hout : ∀ q, k ∉ s.list q := by
    intro q hq
    rw [hlists.allocated q k hq] at hk
    cases hk
  have hhand : s.pc.inHand k = 0 := by
    by_contra hne
    rw [h.hand k hne] at hk
    cases hk
  refine ⟨fun j => ?_, fun j hj => ?_⟩
  · by_cases hjk : j = k
    · subst hjk
      rw [GlueState.sock_setSock_self]
      show 0 = s.listsOf j + s.pc.inHand j
      rw [GlueState.listsOf_eq_zero hout, hhand, add_zero]
    · rw [GlueState.sock_setSock_of_ne _ hjk]
      exact h.balance j
  · have hjk : j ≠ k := by
      rintro rfl
      exact hj hhand
    rw [GlueState.sock_setSock_of_ne _ hjk]
    exact h.hand j hj

/-- A loop takes a socket out of its list and into its hands. -/
theorem take (h : BalanceInv s) (hlists : ListsInv s) (hk : k ∈ s.list q) {pc : GluePc}
    (hbefore : ∀ j, s.pc.inHand j = 0) (hafter : ∀ j, pc.inHand j = if j = k then 1 else 0) :
    BalanceInv { s.remove q k with pc := pc } := by
  refine h.change (fun j => ?_) fun j hj => ?_
  · have hremoved : ({ s.remove q k with pc := pc } : GlueState).listsOf j =
        (s.remove q k).listsOf j := rfl
    rw [hremoved, s.listsOf_remove (hlists.nodup q) hk, hbefore, hafter]
    refine (s.holds_remove q j k).trans ?_
    ring
  · have hjk : j = k := by
      by_contra hne
      rw [hafter, if_neg hne] at hj
      exact hj rfl
    subst hjk
    refine (s.allocated_setPresent (fun f => Function.update f q false) j j).trans ?_
    exact hlists.allocated q j hk

/-- A bounded loop lets go of its socket. -/
theorem letGo (h : BalanceInv s) {pc : GluePc} {handled : List ℕ}
    (hbefore : ∀ j, s.pc.inHand j = if j = k then 1 else 0) (hafter : ∀ j, pc.inHand j = 0) :
    BalanceInv { (s.hold k (-1)).count q (· - 1) with pc := pc, handled := handled } := by
  obtain ⟨hlist, hsock, -⟩ := (s.hold k (-1)).count_frame q (· - 1)
  refine h.change (fun j => ?_) fun j hj => absurd (hafter j) hj
  have hsame : ({ (s.hold k (-1)).count q (· - 1) with
      pc := pc, handled := handled } : GlueState).listsOf j = s.listsOf j :=
    GlueState.listsOf_congr hlist j
  rw [hsame, hbefore, hafter]
  show (((s.hold k (-1)).count q (· - 1)).sock j).holds = _
  rw [hsock, GlueState.holds_hold]
  split
  · ring
  · ring

/-- The loops over the closed and the accept list take a socket out and drop its reference. -/
theorem put (h : BalanceInv s) (hlists : ListsInv s) (hk : k ∈ s.list q)
    (hlist : t.list = (s.remove q k).list)
    (hholds : ∀ j, (t.sock j).holds = (((s.remove q k).hold k (-1)).sock j).holds)
    (hbefore : ∀ j, s.pc.inHand j = 0) (hafter : ∀ j, t.pc.inHand j = 0) : BalanceInv t := by
  refine h.change (fun j => ?_) fun j hj => absurd (hafter j) hj
  rw [hholds, GlueState.holds_hold, GlueState.holds_remove, GlueState.listsOf_congr hlist,
    s.listsOf_remove (hlists.nodup q) hk, hbefore, hafter]
  split
  · ring
  · ring

theorem advance (h : BalanceInv s) (hinv : GlueInv s) (ht : s.advance = some t) :
    BalanceInv t := by
  have hlists := hinv.toListsInv
  have hloop := hinv.loop
  unfold LoopInv at hloop
  unfold GlueState.advance at ht
  cases hpc : s.pc with
  | idle =>
      rw [hpc] at ht
      cases ht
  | closing =>
      have hbefore : ∀ j, s.pc.inHand j = 0 := fun j => by rw [hpc]; rfl
      rw [hpc] at ht
      dsimp only at ht
      split at ht
      · cases ht
        exact h.movePc rfl rfl hbefore fun _ => rfl
      · cases ht
        exact h.movePc rfl rfl hbefore fun _ => rfl
  | closingUser k =>
      have hbefore : ∀ j, s.pc.inHand j = 0 := fun j => by rw [hpc]; rfl
      rw [hpc] at ht hloop
      cases ht
      exact h.put hlists hloop.2 rfl (fun j => GlueState.holds_kernelClose _ j k) hbefore
        fun _ => rfl
  | accepting =>
      have hbefore : ∀ j, s.pc.inHand j = 0 := fun j => by rw [hpc]; rfl
      rw [hpc] at ht
      dsimp only at ht
      split at ht
      · cases ht
        exact h.movePc rfl rfl hbefore fun _ => rfl
      · cases ht
        exact h.movePc rfl rfl hbefore fun _ => rfl
  | acceptingUser k =>
      have hbefore : ∀ j, s.pc.inHand j = 0 := fun j => by rw [hpc]; rfl
      rw [hpc] at ht hloop
      cases ht
      exact h.put hlists hloop.2 rfl (fun _ => rfl) hbefore fun _ => rfl
  | rx idx limit =>
      have hbefore : ∀ j, s.pc.inHand j = 0 := fun j => by rw [hpc]; rfl
      rw [hpc] at ht
      cases hlist : s.list .read with
      | nil =>
          simp only [hlist, Option.some.injEq] at ht
          subst ht
          exact h.movePc rfl rfl hbefore fun _ => rfl
      | cons k rest =>
          simp only [hlist] at ht
          have hk : k ∈ s.list .read := by
            rw [hlist]
            exact List.mem_cons_self
          split at ht
          · cases ht
            exact h.take hlists hk hbefore fun _ => rfl
          · cases ht
            exact h.movePc rfl rfl hbefore fun _ => rfl
  | rxUser k idx limit =>
      have hbefore : ∀ j, s.pc.inHand j = if j = k then 1 else 0 := fun j => by rw [hpc]; rfl
      rw [hpc] at ht
      cases ht
      exact h.letGo hbefore fun _ => rfl
  | tx idx limit =>
      have hbefore : ∀ j, s.pc.inHand j = 0 := fun j => by rw [hpc]; rfl
      rw [hpc] at ht
      cases hlist : s.list .write with
      | nil =>
          simp only [hlist, Option.some.injEq] at ht
          subst ht
          exact h.movePc rfl rfl hbefore fun _ => rfl
      | cons k rest =>
          simp only [hlist] at ht
          have hk : k ∈ s.list .write := by
            rw [hlist]
            exact List.mem_cons_self
          split at ht
          · cases ht
            exact h.take hlists hk hbefore fun _ => rfl
          · cases ht
            exact h.movePc rfl rfl hbefore fun _ => rfl
  | txUser k idx limit =>
      have hbefore : ∀ j, s.pc.inHand j = if j = k then 1 else 0 := fun j => by rw [hpc]; rfl
      rw [hpc] at ht
      cases ht
      exact h.letGo hbefore fun _ => rfl

theorem step {a : GlueStep} (h : BalanceInv s) (hinv : GlueInv s) (hok : balanceOk s a)
    (ht : glueMachine.step s a = some t) : BalanceInv t := by
  have hlists := hinv.toListsInv
  unfold glueMachine at ht
  dsimp only at ht
  split at ht
  next => cases ht
  next =>
      cases a with
      | create k =>
          dsimp only at ht
          split at ht
          next => cases ht
          next hk =>
              cases ht
              exact h.create hlists (Bool.eq_false_iff.mpr hk)
      | readable k =>
          cases ht
          rw [hinv.readable_eq]
          exact h.enter hlists .read k
      | writeSpace k =>
          cases ht
          exact h.enter hlists .write k
      | errorReport k =>
          cases ht
          exact h.enter hlists .closed k
      | wakeup k =>
          cases ht
          exact h.enter hlists .accept k
      | processRxReadySockets =>
          dsimp only at ht
          split at ht
          next hpc =>
              cases ht
              exact h.movePc rfl rfl (fun _ => by rw [hpc]; rfl) fun _ => rfl
          next => cases ht
      | processTxReadySockets =>
          dsimp only at ht
          split at ht
          next hpc =>
              cases ht
              exact h.movePc rfl rfl (fun _ => by rw [hpc]; rfl) fun _ => rfl
          next => cases ht
      | advance => exact h.advance hinv ht
      | closeSocket k =>
          dsimp only at ht
          split at ht
          next hidle =>
              cases ht
              rw [GlueState.closeSocket_eq hlists hok]
              refine h.change (fun j => ?_) fun j hj => ?_
              · rw [GlueState.holds_kernelClose]
                show (s.sock j).holds = _ + (s.listsOf j - s.listsOf j) +
                  (s.pc.inHand j - s.pc.inHand j)
                ring
              · have hnone : s.pc.inHand j = 0 := by rw [hidle.1]; rfl
                exact absurd hnone hj
          next => cases ht
      | getNext q =>
          dsimp only at ht
          split at ht
          next =>
              have hempty : s.list q = [] := hok
              rw [hempty] at ht
              cases ht
              exact h
          next => cases ht

end BalanceInv

theorem balanceInv_run {s : GlueState} (h : glueMachine.ReachableWhere balanceOk s) :
    GlueInv s ∧ BalanceInv s := by
  refine @Machine.invariant_of_step _ _ glueMachine balanceOk (fun s => GlueInv s ∧ BalanceInv s)
    ?_ ?_ s h
  · exact ⟨glueInv_init, fun _ => rfl, fun _ hj => absurd rfl hj⟩
  · rintro s a t ⟨hinv, hbalance⟩ hok ht
    refine ⟨glueInv_step hinv ?_ ?_ ht, hbalance.step hinv hok ht⟩
    · rintro rfl
      exact hok
    · rintro q rfl
      exact hok

/-- **References and lists balance** in every run in which nothing is taken out of a list by
`app_glue_close_socket` or an `app_glue_get_next_...` function, and nothing is freed in one. -/
theorem references_balanced {s : GlueState} (h : glueMachine.ReachableWhere balanceOk s) :
    s.Balanced := by
  intro hpc k
  have hbalance := (balanceInv_run h).2.balance k
  rw [hpc] at hbalance
  exact hbalance.trans (add_zero _)

instance (s : GlueState) (k : ℕ) : Decidable (∀ q, k ∉ s.list q) :=
  decidable_of_iff (k ∉ s.list .read ∧ k ∉ s.list .write ∧ k ∉ s.list .accept ∧ k ∉ s.list .closed)
    ⟨fun ⟨hread, hwrite, haccept, hclosed⟩ q => by cases q <;> assumption,
      fun h => ⟨h .read, h .write, h .accept, h .closed⟩⟩

instance (s : GlueState) : ∀ a, Decidable (balanceOk s a)
  | .advance => inferInstanceAs (Decidable (¬ s.freesQueued))
  | .closeSocket k => inferInstanceAs (Decidable (∀ q, k ∉ s.list q))
  | .getNext q => inferInstanceAs (Decidable (s.list q = []))
  | .create _ => .isTrue trivial
  | .readable _ => .isTrue trivial
  | .writeSpace _ => .isTrue trivial
  | .errorReport _ => .isTrue trivial
  | .wakeup _ => .isTrue trivial
  | .processRxReadySockets => .isTrue trivial
  | .processTxReadySockets => .isTrue trivial

/-- A socket becomes writable and readable, and the loop over the read list handles it. -/
def handleReadable : List GlueStep :=
  [.create 0, .writeSpace 0, .readable 0, .processRxReadySockets, .advance, .advance, .advance,
    .advance, .advance]

theorem references_balanced_handled :
    ∃ s, glueMachine.ReachableWhere balanceOk s ∧ s.pc = .idle ∧ s.list .write = [0] ∧
      s.handled = [0] ∧ s.Balanced := by
  have hrun : ((glueMachine.restrict balanceOk).run handleReadable).map
      (fun s => (s.pc, s.list .write, s.handled)) = some (.idle, [0], [0]) := by decide +kernel
  obtain ⟨s, hs, hview⟩ := Option.map_eq_some_iff.mp hrun
  have hreach := Machine.reachableWhere_of_run _ hs
  obtain ⟨hpc, hrest⟩ := Prod.mk.inj hview
  obtain ⟨hlist, hhandled⟩ := Prod.mk.inj hrest
  exact ⟨s, hreach, hpc, hlist, hhandled, references_balanced hreach⟩

/-- A readable socket is closed: it is in no list and its reference stays. -/
theorem closed_readable_leaks : ∃ s, glueMachine.run
    [.create 0, .readable 0, .closeSocket 0] = some s ∧ (s.sock 0).holds = 1 ∧
    (∀ q, s.list q = []) ∧ ¬ s.Balanced := by
  refine ⟨_, rfl, by decide, fun q => by cases q <;> rfl, fun h => ?_⟩
  have hzero := h rfl 0
  exact absurd hzero (by decide)

end IpAugenblick
