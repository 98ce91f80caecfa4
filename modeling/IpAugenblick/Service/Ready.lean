/-
# A full ready ring

Many connections share the ready ring of one selector.  `ipaugenblick_mark_readable` and
`ipaugenblick_mark_writable` set the flag of the connection and then enqueue; when the ring is
full the enqueue fails and the flag stays set, so that every later mark returns early.  What
`ipaugenblick_mark_writable` returns on that early path is undefined, and the main loop uses
it to decide whether the connection has been told that buffers are available.

The service calls the marks in any order; the clients clear flags, post and select in between.
-/

import IpAugenblick.Rx.Wakeup
import IpAugenblick.Tx.Slot

namespace IpAugenblick

open Lib

/-- Where the service is: outside the marks, or about to enqueue `e` on the ready ring of
`selector`, called from the main loop or from elsewhere. -/
inductive ReadyPc
  | idle
  | post (e : ReadyEntry) (selector : ℕ) (mainLoop : Bool)

structure FailedMark where
  entry : ReadyEntry
  /-- The connection has a flag for the event, and it is clear. -/
  clear : Bool
  /-- The caller keeps the connection for another try. -/
  reported : Bool

structure Removal where
  connectionIdx : ℕ
  /-- WRITABLE was enqueued since `write_ready_to_app` was last set. -/
  posted : Bool

/-- The marks of all connections. -/
structure ReadyState where
  /-- `parent_idx`, with `none` for -1. -/
  parentIdx : ℕ → Option ℕ
  /-- `read_ready_to_app` and `write_ready_to_app`; nobody sets one for CLOSED. -/
  readyToApp : ReadyEntry → Bool
  /-- `ready_connections` of each selector. -/
  ready : ℕ → Ring ReadyEntry readyCapacity
  /-- The connections of `buffers_available_notification_socket_list_head`. -/
  buffersAvailable : List ℕ
  service : ReadyPc
  /-- The entry was enqueued since its flag was last set. -/
  posted : ReadyEntry → Bool
  failed : List FailedMark
  removed : List Removal

inductive ReadyStep
  | /-- OPEN_SOCKET, SET_SOCKET_RING, SET_SOCKET_SELECT or CLOSE. -/
    setParent (i : ℕ) (parentIdx : Option ℕ)
  | /-- TX_POOL_EMPTY. -/
    txPoolEmpty (i : ℕ)
  | markReadable (i : ℕ)
  | markWritable (i : ℕ)
  | markClosed (i : ℕ)
  | /-- The main loop marks the first connection of the list writable; `undefined` is what
    `ipaugenblick_mark_writable` returns without a value. -/
    mainLoop (undefined : ℕ)
  | /-- The enqueue of the mark under way. -/
    post
  | /-- A client clears a flag. -/
    clear (e : ReadyEntry)
  | /-- A client posts for a half-delivered chain. -/
    clientPost (selector : ℕ) (e : ReadyEntry)
  | /-- A client takes `n` entries. -/
    select (selector n : ℕ)

/-- The main loop removes the first connection of the list. -/
def ReadyState.removeFirst (s : ReadyState) : ReadyState :=
  match s.buffersAvailable with
  | [] => s
  | i :: rest =>
      { s with
        buffersAvailable := rest
        removed := ⟨i, s.posted (writableEntry i)⟩ :: s.removed }

/-- `ipaugenblick_mark_readable`, `ipaugenblick_mark_writable` and `ipaugenblick_mark_closed`
up to the enqueue. -/
def ReadyState.mark (s : ReadyState) (e : ReadyEntry) (mainLoop : Bool) (undefined : ℕ) :
    ReadyState :=
  match s.parentIdx e.connectionIdx with
  | none => s
  | some selector =>
      if e.bit = .closed then { s with service := .post e selector mainLoop }
      else if s.readyToApp e then
        if mainLoop ∧ undefined = 0 then s.removeFirst else s
      else
        { s with
          readyToApp := Function.update s.readyToApp e true
          posted := Function.update s.posted e false
          service := .post e selector mainLoop }

def ReadyState.post (s : ReadyState) : Option ReadyState :=
  match s.service with
  | .idle => none
  | .post e selector mainLoop =>
      match (s.ready selector).enqueueBulk (readyCapacity + 1) [e] with
      | (.nobufs, _) => some { s with
          service := .idle
          failed := ⟨e, decide (e.bit ≠ .closed) && !s.readyToApp e, mainLoop⟩ :: s.failed }
      | (_, ring) =>
          let s := { s with
            service := .idle
            ready := Function.update s.ready selector ring
            posted := Function.update s.posted e true }
          some (if mainLoop then s.removeFirst else s)

/-- All connections, from their creation.  A mark is a test-and-set and then an enqueue, and the
client may clear the flag between the two. -/
def readyMachine : Machine ReadyState ReadyStep where
  init :=
    { parentIdx := fun _ => none, readyToApp := fun _ => false, ready := fun _ => .empty
      buffersAvailable := [], service := .idle, posted := fun _ => false
      failed := [], removed := [] }
  step s a :=
    match s.service, a with
    | .idle, .setParent i parentIdx =>
        some { s with parentIdx := Function.update s.parentIdx i parentIdx }
    | .idle, .txPoolEmpty i =>
        if i ∈ s.buffersAvailable then some s
        else some { s with buffersAvailable := s.buffersAvailable ++ [i] }
    | .idle, .markReadable i => some (s.mark (readableEntry i) false 0)
    | .idle, .markWritable i => some (s.mark (writableEntry i) false 0)
    | .idle, .markClosed i => some (s.mark ⟨i, .closed⟩ false 0)
    | .idle, .mainLoop undefined =>
        match s.buffersAvailable with
        | [] => none
        | i :: _ => some (s.mark (writableEntry i) true undefined)
    | _, .post => s.post
    | _, .clear e => some { s with readyToApp := Function.update s.readyToApp e false }
    | _, .clientPost selector e =>
        let ring := ((s.ready selector).enqueueBulk (readyCapacity + 1) [e]).2
        some { s with ready := Function.update s.ready selector ring }
    | _, .select selector n =>
        let ring := ((s.ready selector).dequeueBurst n).2
        some { s with ready := Function.update s.ready selector ring }
    | _, _ => none

/-- The mark of `e` is under way. -/
def ReadyState.Posting (s : ReadyState) (e : ReadyEntry) : Prop :=
  ∃ selector mainLoop, s.service = .post e selector mainLoop

structure NothingSwallowed (s : ReadyState) : Prop where
  flagged : ∀ e, s.readyToApp e = true → ¬ s.Posting e → s.posted e = true
  failed : ∀ m ∈ s.failed, m.clear = true ∨ m.reported = true
  removed : ∀ r ∈ s.removed, r.posted = true

/-- The guard of the runs in which the enqueue of a mark finds room, or the client has cleared
the flag again since it was set. -/
def readyOk (s : ReadyState) : ReadyStep → Prop
  | .post =>
      match s.service with
      | .idle => True
      | .post e selector _ =>
          0 < (s.ready selector).freeCount ∨ e.bit ≠ .closed ∧ s.readyToApp e = false
  | _ => True

/-! ## The invariant -/

/-- Nothing is swallowed, and the mark of the main loop is that of the first connection, which the
loop takes off its list only after the mark. -/
structure ReadyInv (s : ReadyState) : Prop extends NothingSwallowed s where
  first : ∀ e selector, s.service = .post e selector true →
    ∃ i rest, s.buffersAvailable = i :: rest ∧ e = writableEntry i

variable {s t : ReadyState}

/-- Outside the marks every flag that is set has its entry behind it. -/
theorem NothingSwallowed.posted_of_idle (h : NothingSwallowed s) (hidle : s.service = .idle)
    {e : ReadyEntry} (hset : s.readyToApp e = true) : s.posted e = true := by
  refine h.flagged e hset ?_
  rintro ⟨selector, mainLoop, hpost⟩
  rw [hidle] at hpost
  cases hpost

/-- A step that sets no flag, fails no mark and removes no connection. -/
theorem ReadyInv.keep (h : ReadyInv s) (hflag : ∀ e, t.readyToApp e = true → s.readyToApp e = true)
    (hposted : t.posted = s.posted) (hservice : t.service = s.service)
    (hfailed : t.failed = s.failed) (hremoved : t.removed = s.removed)
    (hlist : ∀ i rest, s.buffersAvailable = i :: rest → ∃ rest', t.buffersAvailable = i :: rest') :
    ReadyInv t where
  flagged := by
    unfold ReadyState.Posting
    rw [hposted, hservice]
    exact fun e hset hpost => h.flagged e (hflag e hset) hpost
  failed := by
    rw [hfailed]
    exact h.failed
  removed := by
    rw [hremoved]
    exact h.removed
  first := by
    rw [hservice]
    intro e selector hpost
    obtain ⟨i, rest, hs, he⟩ := h.first e selector hpost
    obtain ⟨rest', ht⟩ := hlist i rest hs
    exact ⟨i, rest', ht, he⟩

/-- The main loop removes a connection that was told. -/
theorem ReadyInv.removeFirst (h : ReadyInv s) (hidle : s.service = .idle)
    (hposted : ∀ i rest, s.buffersAvailable = i :: rest → s.posted (writableEntry i) = true) :
    ReadyInv s.removeFirst := by
  unfold ReadyState.removeFirst
  cases hlist : s.buffersAvailable with
  | nil => exact h
  | cons i rest =>
      refine { flagged := h.flagged, failed := h.failed, removed := ?_, first := ?_ }
      · intro r hr
        rcases List.mem_cons.mp hr with rfl | hr
        · exact hposted i rest hlist
        · exact h.removed r hr
      · intro e selector hpost
        rw [hidle] at hpost
        cases hpost

/-- A mark up to the enqueue. -/
theorem ReadyInv.mark (h : ReadyInv s) (hidle : s.service = .idle) {e : ReadyEntry}
    {mainLoop : Bool} {undefined : ℕ}
    (hfirst : mainLoop = true → ∃ i rest, s.buffersAvailable = i :: rest ∧ e = writableEntry i) :
    ReadyInv (s.mark e mainLoop undefined) := by
  have hposted : ∀ {e}, s.readyToApp e = true → s.posted e = true := h.posted_of_idle hidle
  unfold ReadyState.mark
  split
  next => exact h
  next selector _ =>
      split
      next =>
          refine { flagged := fun _ hset _ => hposted hset, failed := h.failed,
                   removed := h.removed, first := ?_ }
          intro e' selector' hpost
          cases hpost
          exact hfirst rfl
      next =>
          split
          next hset =>
              split
              next hremove =>
                  refine h.removeFirst hidle fun i rest hlist => ?_
                  obtain ⟨i', rest', hlist', he⟩ := hfirst hremove.1
                  rw [hlist] at hlist'
                  cases hlist'
                  rw [← he]
                  exact hposted hset
              next => exact h
          next =>
              refine { flagged := ?_, failed := h.failed, removed := h.removed, first := ?_ }
              · intro e' hset hpost
                have hne : e' ≠ e := by
                  rintro rfl
                  exact hpost ⟨selector, mainLoop, rfl⟩
                dsimp only at hset ⊢
                rw [Function.update_of_ne hne] at hset ⊢
                exact hposted hset
              · intro e' selector' hpost
                cases hpost
                exact hfirst rfl

/-- The enqueue of a mark. -/
theorem ReadyInv.post (h : ReadyInv s) (hok : readyOk s .post) (ht : s.post = some t) :
    ReadyInv t := by
  unfold ReadyState.post at ht
  split at ht
  next => cases ht
  next e selector mainLoop hpc =>
      rw [readyOk, hpc] at hok
      have hother : ∀ e', s.readyToApp e' = true → e' ≠ e → s.posted e' = true := by
        intro e' hset hne
        refine h.flagged e' hset ?_
        rintro ⟨_, _, hpost⟩
        rw [hpc] at hpost
        cases hpost
        exact hne rfl
      split at ht
      next ring hfull =>
          obtain ⟨hbit, hclear⟩ :=
            hok.resolve_left (Nat.not_lt.mpr (Nat.le_of_eq (Ring.freeCount_of_nobufs hfull)))
          obtain rfl := Option.some.inj ht
          refine { flagged := ?_, failed := ?_, removed := h.removed, first := nofun }
          · intro e' hset _
            refine hother e' hset ?_
            rintro rfl
            rw [show s.readyToApp e' = true from hset] at hclear
            cases hclear
          · intro m hm
            rcases List.mem_cons.mp hm with rfl | hm
            · simp only [hbit, hclear, ne_eq, not_false_eq_true, decide_true, Bool.not_false,
                Bool.and_self, true_or]
            · exact h.failed m hm
      next code ring hcode hqueued =>
          have hposted : ReadyInv { s with
              service := .idle
              ready := Function.update s.ready selector ring
              posted := Function.update s.posted e true } := by
            refine { flagged := ?_, failed := h.failed, removed := h.removed, first := nofun }
            intro e' hset _
            by_cases hne : e' = e
            · rw [hne]
              exact Function.update_self _ _ _
            · dsimp only
              rw [Function.update_of_ne hne]
              exact hother e' hset hne
          dsimp only at ht
          obtain rfl := Option.some.inj ht
          split
          next hmain =>
              refine hposted.removeFirst rfl fun i rest hlist => ?_
              subst hmain
              obtain ⟨i', rest', hlist', he⟩ := h.first e selector hpc
              rw [show s.buffersAvailable = i :: rest from hlist] at hlist'
              cases hlist'
              rw [← he]
              exact Function.update_self _ _ _
          next => exact hposted

/-- **Step lemma.** -/
theorem readyInv_step {a : ReadyStep} (h : ReadyInv s) (hok : readyOk s a)
    (ht : readyMachine.step s a = some t) : ReadyInv t := by
  dsimp only [readyMachine] at ht
  split at ht
  next hidle =>
      obtain rfl := Option.some.inj ht
      exact h.keep (fun _ => id) rfl rfl rfl rfl fun i rest hlist => ⟨rest, hlist⟩
  next i hidle =>
      split at ht
      · obtain rfl := Option.some.inj ht
        exact h
      · obtain rfl := Option.some.inj ht
        refine h.keep (fun _ => id) rfl rfl rfl rfl fun j rest hlist => ⟨rest ++ [i], ?_⟩
        dsimp only
        rw [hlist, List.cons_append]
  next hidle => obtain rfl := Option.some.inj ht; exact h.mark hidle nofun
  next hidle => obtain rfl := Option.some.inj ht; exact h.mark hidle nofun
  next hidle => obtain rfl := Option.some.inj ht; exact h.mark hidle nofun
  next hidle =>
      split at ht
      next => cases ht
      next i rest hlist =>
          obtain rfl := Option.some.inj ht
          exact h.mark hidle fun _ => ⟨i, rest, hlist, rfl⟩
  next => exact h.post hok ht
  next e =>
      obtain rfl := Option.some.inj ht
      refine h.keep (fun e' hset => ?_) rfl rfl rfl rfl fun i rest hlist => ⟨rest, hlist⟩
      by_cases hne : e' = e
      · subst hne
        dsimp only at hset
        rw [Function.update_self] at hset
        cases hset
      · dsimp only at hset
        rwa [Function.update_of_ne hne] at hset
  next =>
      obtain rfl := Option.some.inj ht
      exact h.keep (fun _ => id) rfl rfl rfl rfl fun i rest hlist => ⟨rest, hlist⟩
  next =>
      obtain rfl := Option.some.inj ht
      exact h.keep (fun _ => id) rfl rfl rfl rfl fun i rest hlist => ⟨rest, hlist⟩
  next => cases ht

/-- **No event is swallowed** in the runs in which the enqueue of every mark finds room or a flag
that was cleared again. -/
theorem ready_ring_swallows_nothing (hreach : readyMachine.ReachableWhere readyOk s) :
    NothingSwallowed s := by
  have hinv : ReadyInv s := by
    refine readyMachine.invariant_of_step ?_ ?_ hreach
    · exact { flagged := nofun, failed := nofun, removed := nofun, first := nofun }
    · intro s a t h hok hstep
      exact readyInv_step h hok hstep
  exact hinv.toNothingSwallowed

instance (s : ReadyState) (a : ReadyStep) : Decidable (readyOk s a) := by
  cases a with
  | post =>
      unfold readyOk
      dsimp only
      split <;> infer_instance
  | _ => exact inferInstanceAs (Decidable True)

/-- A connection whose buffer pool was empty is told by the main loop, after a mark that the
client has answered. -/
def tellWaiting : List ReadyStep :=
  [.setParent 7 (some 0), .markWritable 7, .post, .clear (writableEntry 7), .select 0 1,
    .txPoolEmpty 7, .mainLoop 0, .post]

theorem ready_ring_swallows_nothing_waiting :
    ∃ s, readyMachine.ReachableWhere readyOk s ∧ s.removed.map (·.connectionIdx) = [7] ∧
      NothingSwallowed s := by
  have hrun : ((readyMachine.restrict readyOk).run tellWaiting).map
      (fun s => s.removed.map (·.connectionIdx)) = some [7] := by decide +kernel
  obtain ⟨s, hs, hview⟩ := Option.map_eq_some_iff.mp hrun
  have hreach := Machine.reachableWhere_of_run _ hs
  exact ⟨s, hreach, hview, ready_ring_swallows_nothing hreach⟩

/-! ## More readable connections than entries -/

/-- Connection `i` is bound to selector 0 and becomes readable. -/
def becomeReadable (i : ℕ) : List ReadyStep := [.setParent i (some 0), .markReadable i, .post]

/-- The first `n` connections become readable, and no client selects. -/
def fill (n : ℕ) : List ReadyStep := (List.range n).flatMap becomeReadable

/-- The state in which connection `i` is about to be posted. -/
def ReadyState.marked (s : ReadyState) (i : ℕ) : ReadyState :=
  { s with
    parentIdx := Function.update s.parentIdx i (some 0)
    readyToApp := Function.update s.readyToApp (readableEntry i) true
    posted := Function.update s.posted (readableEntry i) false
    service := .post (readableEntry i) 0 false }

theorem runFrom_becomeReadable {i : ℕ} (hidle : s.service = .idle)
    (hclear : s.readyToApp (readableEntry i) = false) :
    readyMachine.runFrom s (becomeReadable i) = (s.marked i).post := by
  obtain ⟨parentIdx, readyToApp, ready, list, service, posted, failed, removed⟩ := s
  obtain rfl : service = .idle := hidle
  have hmark (u : ReadyState) (hu : u.readyToApp (readableEntry i) = false)
      (hparent : u.parentIdx i = some 0) : u.mark (readableEntry i) false 0 = u.marked i := by
    have hsame : Function.update u.parentIdx i (some 0) = u.parentIdx := by
      rw [← hparent, Function.update_eq_self]
    simp only [ReadyState.mark, ReadyState.marked, hu, hsame]
    simp only [readableEntry, hparent, reduceCtorEq, if_false, Bool.false_eq_true]
  simp only [becomeReadable, Machine.runFrom_cons, Machine.runFrom_nil, readyMachine,
    Option.bind_some]
  rw [hmark]
  · simp only [ReadyState.marked, Function.update_idem]
    exact Option.bind_fun_some _
  · exact hclear
  · exact Function.update_self _ _ _

theorem run_fill_succ (n : ℕ) : readyMachine.run (fill (n + 1)) =
    (readyMachine.run (fill n)).bind fun s => readyMachine.runFrom s (becomeReadable n) := by
  rw [fill, List.range_succ, List.flatMap_append, List.flatMap_singleton, Machine.run,
    Machine.runFrom_append]
  rfl

/-- With room in the ring, the entry is posted. -/
theorem post_marked {i : ℕ} (hroom : 0 < (s.ready 0).freeCount) :
    ∃ t, (s.marked i).post = some t ∧ t.service = .idle ∧
      (t.ready 0).items = (s.ready 0).items ++ [readableEntry i] ∧
      t.readyToApp = (s.marked i).readyToApp := by
  unfold ReadyState.post
  dsimp only [ReadyState.marked]
  split
  next ring hfull => exact absurd (Ring.freeCount_of_nobufs hfull) (Nat.ne_of_gt hroom)
  next code ring hcode hqueued =>
      refine ⟨_, rfl, rfl, ?_, rfl⟩
      simp only [Bool.false_eq_true, if_false, Function.update_self]
      exact Ring.items_of_queued hcode hqueued

/-- Without, only the failure is recorded. -/
theorem post_marked_full {i : ℕ} (hfull : (s.ready 0).freeCount = 0) :
    ∃ t, (s.marked i).post = some t ∧ t.service = .idle ∧
      t.readyToApp = (s.marked i).readyToApp ∧ t.posted = (s.marked i).posted := by
  have hnobufs : (s.ready 0).enqueueBulk (readyCapacity + 1) [readableEntry i] =
      (.nobufs, s.ready 0) := by
    rw [Ring.enqueueBulk, if_pos (by rw [hfull, List.length_singleton]; exact Nat.one_pos)]
  unfold ReadyState.post
  dsimp only [ReadyState.marked]
  rw [hnobufs]
  exact ⟨_, rfl, rfl, rfl, rfl⟩

/-- Up to the capacity, the ring holds one entry for each connection. -/
theorem run_fill {n : ℕ} (hn : n ≤ readyCapacity) :
    ∃ s, readyMachine.run (fill n) = some s ∧ s.service = .idle ∧ (s.ready 0).items.length = n ∧
      ∀ i, n ≤ i → s.readyToApp (readableEntry i) = false := by
  induction n with
  | zero => exact ⟨readyMachine.init, rfl, rfl, rfl, fun _ _ => rfl⟩
  | succ n ih =>
      obtain ⟨s, hrun, hidle, hlength, hclear⟩ := ih (Nat.le_of_succ_le hn)
      have hroom : 0 < (s.ready 0).freeCount := by
        rw [Ring.freeCount, hlength]
        omega
      obtain ⟨t, hpost, htidle, hitems, hflags⟩ := post_marked (i := n) hroom
      refine ⟨t, ?_, htidle, ?_, ?_⟩
      · rw [run_fill_succ, hrun, Option.bind_some,
          runFrom_becomeReadable hidle (hclear n (Nat.le_refl n)), hpost]
      · rw [hitems, List.length_append, hlength, List.length_singleton]
      · intro i hi
        have hne : readableEntry i ≠ readableEntry n := by
          intro heq
          exact Nat.ne_of_gt hi (congrArg ReadyEntry.connectionIdx heq)
        rw [hflags]
        exact (Function.update_of_ne hne _ _).trans (hclear i (Nat.le_of_succ_le hi))

/-- 1024 connections of one selector become readable: the ring has no room for the last, whose
flag stays set. -/
theorem full_ready_ring_swallows_readable :
    ∃ s, readyMachine.run (fill 1024) = some s ∧ s.service = .idle ∧
      s.readyToApp (readableEntry 1023) = true ∧ s.posted (readableEntry 1023) = false ∧
      ¬ NothingSwallowed s := by
  obtain ⟨s, hrun, hidle, hlength, hclear⟩ := run_fill (Nat.le_refl readyCapacity)
  have hfull : (s.ready 0).freeCount = 0 := by rw [Ring.freeCount, hlength, Nat.sub_self]
  obtain ⟨t, hpost, htidle, hflags, hposted⟩ := post_marked_full (i := 1023) hfull
  have hset : t.readyToApp (readableEntry 1023) = true := by
    rw [hflags]
    simp only [ReadyState.marked, Function.update_self]
  have hunposted : t.posted (readableEntry 1023) = false := by
    rw [hposted]
    simp only [ReadyState.marked, Function.update_self]
  refine ⟨t, ?_, htidle, hset, hunposted, ?_⟩
  · rw [run_fill_succ, show readyMachine.run (fill 1023) = some s from hrun, Option.bind_some,
      runFrom_becomeReadable hidle (hclear 1023 (Nat.le_refl _)), hpost]
  · intro h
    rw [h.posted_of_idle htidle hset] at hunposted
    cases hunposted

end IpAugenblick
