/-
# The ready queues of app_glue

A socket that becomes readable, writable, acceptable or broken is put at the tail of a list of
`app_glue.c` and marked with a flag of its own; `process_rx_ready_sockets` and
`process_tx_ready_sockets` work the lists off.  The callbacks of the stack may come at any point
of these loops.  The `struct socket` of a connection is an address: `sock_release` frees it and
`sock_alloc` may hand the same address out again, zeroed.

`app_glue_close_socket` takes a socket out of all four lists before it is freed.  The loop over
the closed list frees a socket that may still be in the other lists; in the runs where it never
does, flags, lists and counters agree.
-/

import IpAugenblick.Lib.Machine
import Mathlib.Data.Int.Notation
import Mathlib.Data.List.Nodup
import Mathlib.Logic.Function.Basic

namespace IpAugenblick

open Lib

/-- The lists of `app_glue.c`. -/
inductive GlueList
  | read
  | write
  | accept
  | closed
  deriving DecidableEq, Repr

/-- The memory of a `struct socket`. -/
structure GlueSock where
  /-- Between `sock_alloc` and `sock_release`. -/
  allocated : Bool
  /-- The `..._queue_present` flags. -/
  present : GlueList → Bool
  /-- `sock_hold` less `sock_put` of `app_glue.c` on its `sk`. -/
  holds : ℤ

/-- Where `process_rx_ready_sockets` or `process_tx_ready_sockets` is. -/
inductive GluePc
  | /-- In neither. -/
    idle
  | /-- At the head of the loop over the closed list. -/
    closing
  | /-- In `user_on_socket_fatal`. -/
    closingUser (k : ℕ)
  | /-- At the head of the loop over the accept list. -/
    accepting
  | /-- In `user_on_accept`. -/
    acceptingUser (k : ℕ)
  | /-- At the head of the loop over the read list. -/
    rx (idx limit : ℕ)
  | /-- In `user_data_available_cbk`. -/
    rxUser (k idx limit : ℕ)
  | /-- At the head of the loop over the write list. -/
    tx (idx limit : ℕ)
  | /-- In `user_on_transmission_opportunity`. -/
    txUser (k idx limit : ℕ)
  deriving DecidableEq, Repr

structure GlueState where
  sock : ℕ → GlueSock
  list : GlueList → List ℕ
  readSocketsQueueLen : ℕ
  writeSocketsQueueLen : ℕ
  pc : GluePc
  /-- `exit(0)` was called. -/
  exited : Bool
  /-- The list that the last bounded loop found when it started. -/
  started : List ℕ
  /-- The sockets that it has handled. -/
  handled : List ℕ

inductive GlueStep
  | /-- `sock_alloc` returns the address `k`. -/
    create (k : ℕ)
  | /-- `app_glue_sock_readable`, in a state in which the socket may be read. -/
    readable (k : ℕ)
  | /-- `app_glue_sock_write_space`, when the socket is writeable. -/
    writeSpace (k : ℕ)
  | errorReport (k : ℕ)
  | /-- `app_glue_sock_wakeup` finds the listener `k`; without one it is
    `app_glue_sock_write_space`. -/
    wakeup (k : ℕ)
  | processRxReadySockets
  | processTxReadySockets
  | /-- The processing loop goes on. -/
    advance
  | /-- `app_glue_close_socket`. -/
    closeSocket (k : ℕ)
  | /-- `app_glue_get_next_reader`, `_writer`, `_listener` or `_closed`. -/
    getNext (q : GlueList)
  deriving DecidableEq, Repr

namespace GlueState

variable (s : GlueState)

def setSock (k : ℕ) (f : GlueSock → GlueSock) : GlueState :=
  { s with sock := Function.update s.sock k (f (s.sock k)) }

/-- `sock_hold` and `sock_put`. -/
def hold (k : ℕ) (d : ℤ) : GlueState := s.setSock k fun m => { m with holds := m.holds + d }

/-- Set the flag and insert the socket at the tail. -/
def insertTail (q : GlueList) (k : ℕ) : GlueState :=
  { s.setSock k (fun m => { m with present := Function.update m.present q true }) with
    list := Function.update s.list q (s.list q ++ [k]) }

def remove (q : GlueList) (k : ℕ) : GlueState :=
  { s.setSock k (fun m => { m with present := Function.update m.present q false }) with
    list := Function.update s.list q ((s.list q).erase k) }

def count (q : GlueList) (f : ℕ → ℕ) : GlueState :=
  match q with
  | .read => { s with readSocketsQueueLen := f s.readSocketsQueueLen }
  | .write => { s with writeSocketsQueueLen := f s.writeSocketsQueueLen }
  | _ => s

/-- The four callbacks: nothing for a socket that is gone or present, else one reference and the
tail of the list. -/
def enter (q : GlueList) (k : ℕ) : GlueState :=
  if (s.sock k).allocated = false ∨ (s.sock k).present q = true then s
  else ((s.hold k 1).insertTail q k).count q (· + 1)

def appGlueSockReadable (k : ℕ) : GlueState :=
  if (s.sock k).allocated ∧ (s.sock k).present .read ∧ s.readSocketsQueueLen = 0 then
    { s with exited := true }
  else s.enter .read k

/-- A branch of `app_glue_close_socket`. -/
def leave (q : GlueList) (k : ℕ) : GlueState :=
  if (s.sock k).present q then (s.remove q k).count q (· - 1) else s

/-- `kernel_close`, with the `sock_release` in it. -/
def kernelClose (k : ℕ) : GlueState := s.setSock k fun m => { m with allocated := false }

/-- `app_glue_close_socket`.  What is still to be accepted is created and freed at once. -/
def appGlueCloseSocket (k : ℕ) : GlueState :=
  ((((s.leave .read k).leave .write k).leave .accept k).leave .closed k).kernelClose k

/-- The next part of `process_rx_ready_sockets` or `process_tx_ready_sockets`. -/
def advance : Option GlueState :=
  match s.pc with
  | .idle => none
  | .closing =>
      match s.list .closed with
      | [] => some { s with pc := .accepting }
      | k :: _ => some { s with pc := .closingUser k }
  | .closingUser k =>
      some { ((s.remove .closed k).hold k (-1)).kernelClose k with pc := .closing }
  | .accepting =>
      match s.list .accept with
      | [] => some { s with
          pc := .rx 0 s.readSocketsQueueLen, started := s.list .read, handled := [] }
      | k :: _ => some { s with pc := .acceptingUser k }
  | .acceptingUser k => some { (s.remove .accept k).hold k (-1) with pc := .accepting }
  | .rx idx limit =>
      match s.list .read with
      | [] => some { s with pc := .idle }
      | k :: _ =>
          if idx < limit then some { s.remove .read k with pc := .rxUser k idx limit }
          else some { s with pc := .idle }
  | .rxUser k idx limit =>
      some { (s.hold k (-1)).count .read (· - 1) with
        pc := .rx (idx + 1) limit, handled := s.handled ++ [k] }
  | .tx idx limit =>
      match s.list .write with
      | [] => some { s with pc := .idle }
      | k :: _ =>
          if idx < limit then some { s.remove .write k with pc := .txUser k idx limit }
          else some { s with pc := .idle }
  | .txUser k idx limit =>
      some { (s.hold k (-1)).count .write (· - 1) with
        pc := .tx (idx + 1) limit, handled := s.handled ++ [k] }

end GlueState

/-- `app_glue.c`, with its callbacks at any time: the loops call into the stack, the stack wakes
sockets up, and a socket may be back in the list while its round is under way. -/
def glueMachine : Machine GlueState GlueStep where
  init :=
    { sock := fun _ => ⟨false, fun _ => false, 0⟩, list := fun _ => []
      readSocketsQueueLen := 0, writeSocketsQueueLen := 0
      pc := .idle, exited := false, started := [], handled := [] }
  step s a :=
    if s.exited then none
    else
      match a with
      | .create k =>
          if (s.sock k).allocated then none
          else some (s.setSock k fun _ => ⟨true, fun _ => false, 0⟩)
      | .readable k => some (s.appGlueSockReadable k)
      | .writeSpace k => some (s.enter .write k)
      | .errorReport k => some (s.enter .closed k)
      | .wakeup k => some (s.enter .accept k)
      | .processRxReadySockets =>
          if s.pc = .idle then some { s with pc := .closing } else none
      | .processTxReadySockets =>
          if s.pc = .idle then
            some { s with
              pc := .tx 0 s.writeSocketsQueueLen, started := s.list .write, handled := [] }
          else none
      | .advance => s.advance
      | .closeSocket k =>
          if s.pc = .idle ∧ (s.sock k).allocated then some (s.appGlueCloseSocket k) else none
      | .getNext q =>
          if s.pc = .idle then
            match s.list q with
            | [] => some s
            | k :: _ => some (s.remove q k)
          else none

/-- The closed list hands over a socket that is in another list. -/
def GlueState.freesQueued (s : GlueState) : Prop :=
  ∃ k, s.pc = .closingUser k ∧ ∃ q, q ≠ .closed ∧ k ∈ s.list q

/-- The loop that a program counter is in is a bounded one. -/
def GluePc.bounded : GluePc → Bool
  | .rx _ _ => true
  | .rxUser _ _ _ => true
  | .tx _ _ => true
  | .txUser _ _ _ => true
  | _ => false

/-- A bound on the rounds that are left in a bounded loop. -/
def GluePc.left : GluePc → ℕ
  | .rx idx limit => 2 * (limit - idx) + 1
  | .rxUser _ idx limit => 2 * (limit - idx)
  | .tx idx limit => 2 * (limit - idx) + 1
  | .txUser _ idx limit => 2 * (limit - idx)
  | _ => 0

/-- A callback of the loop over the read list runs. -/
def GluePc.inRxUser : GluePc → Bool
  | .rxUser _ _ _ => true
  | _ => false

/-- A callback of the loop over the write list runs. -/
def GluePc.inTxUser : GluePc → Bool
  | .txUser _ _ _ => true
  | _ => false

/-- Lists, flags and counters agree, and a bounded loop that has ended has handled what was in
the list when it started. -/
structure GlueState.Consistent (s : GlueState) : Prop where
  nodup : ∀ q, (s.list q).Nodup
  mem_iff : ∀ q k, k ∈ s.list q ↔ (s.sock k).present q = true
  readLen : s.readSocketsQueueLen = (s.list .read).length + if s.pc.inRxUser then 1 else 0
  writeLen : s.writeSocketsQueueLen = (s.list .write).length + if s.pc.inTxUser then 1 else 0
  running : s.exited = false
  handled : s.pc.bounded = false → s.handled = s.started

/-- A bounded loop can go on, to its end: other steps leave it where it is. -/
def GlueState.LoopEnds (s : GlueState) : Prop :=
  s.pc.bounded = true →
    (∃ t, glueMachine.step s .advance = some t ∧ t.pc.left < s.pc.left) ∧
    ∀ a t, a ≠ .advance → glueMachine.step s a = some t → t.pc = s.pc

/-! ## Lists and flags -/

/-- Lists and flags agree, and what is in a list has not been freed. -/
structure ListsInv (s : GlueState) : Prop where
  nodup : ∀ q, (s.list q).Nodup
  mem_iff : ∀ q k, k ∈ s.list q ↔ (s.sock k).present q = true
  allocated : ∀ q k, k ∈ s.list q → (s.sock k).allocated = true

namespace GlueState

variable {s : GlueState} {q r : GlueList} {j k : ℕ}

@[simp]
theorem sock_setSock_self (s : GlueState) (k : ℕ) (f : GlueSock → GlueSock) :
    (s.setSock k f).sock k = f (s.sock k) := Function.update_self _ _ _

@[simp]
theorem sock_setSock_of_ne (s : GlueState) (h : j ≠ k) (f : GlueSock → GlueSock) :
    (s.setSock k f).sock j = s.sock j := Function.update_of_ne h _ _

/-- The flags after one was set or cleared. -/
theorem present_setSock (s : GlueState) (q r : GlueList) (j k : ℕ) (b : Bool) :
    ((s.setSock k fun m => { m with present := Function.update m.present q b }).sock j).present r =
      if j = k ∧ r = q then b else (s.sock j).present r := by
  by_cases hjk : j = k
  · subst hjk
    by_cases hrq : r = q
    · subst hrq
      simp
    · simp [hrq]
  · simp [hjk]

theorem list_insertTail (s : GlueState) (q r : GlueList) (k : ℕ) :
    (s.insertTail q k).list r = if r = q then s.list r ++ [k] else s.list r := by
  by_cases hrq : r = q
  · subst hrq
    simp [insertTail]
  · simp [insertTail, hrq]

theorem list_remove (s : GlueState) (q r : GlueList) (k : ℕ) :
    (s.remove q k).list r = if r = q then (s.list r).erase k else s.list r := by
  by_cases hrq : r = q
  · subst hrq
    simp [remove]
  · simp [remove, hrq]

theorem readLen_count (s : GlueState) (q : GlueList) (f : ℕ → ℕ) :
    (s.count q f).readSocketsQueueLen =
      if q = .read then f s.readSocketsQueueLen else s.readSocketsQueueLen := by
  cases q <;> rfl

theorem writeLen_count (s : GlueState) (q : GlueList) (f : ℕ → ℕ) :
    (s.count q f).writeSocketsQueueLen =
      if q = .write then f s.writeSocketsQueueLen else s.writeSocketsQueueLen := by
  cases q <;> rfl

/-- A counter is all that `count` changes. -/
theorem count_frame (s : GlueState) (q : GlueList) (f : ℕ → ℕ) :
    (s.count q f).list = s.list ∧ (s.count q f).sock = s.sock ∧ (s.count q f).pc = s.pc ∧
      (s.count q f).exited = s.exited ∧ (s.count q f).started = s.started ∧
      (s.count q f).handled = s.handled := by
  cases q <;> exact ⟨rfl, rfl, rfl, rfl, rfl, rfl⟩

/-- Flags do not tell whether a socket is allocated. -/
theorem allocated_setPresent (s : GlueState) (f : (GlueList → Bool) → GlueList → Bool) (j k : ℕ) :
    ((s.setSock k fun m => { m with present := f m.present }).sock j).allocated =
      (s.sock j).allocated := by
  by_cases hjk : j = k
  · subst hjk
    simp
  · simp [hjk]

/-- References do not tell anything else. -/
theorem sock_hold (s : GlueState) (j k : ℕ) (d : ℤ) :
    ((s.hold k d).sock j).present = (s.sock j).present ∧
      ((s.hold k d).sock j).allocated = (s.sock j).allocated := by
  unfold hold
  by_cases hjk : j = k
  · subst hjk
    simp
  · simp [hjk]

end GlueState

namespace ListsInv

variable {s t : GlueState} {q : GlueList} {k : ℕ}

/-- Nothing that the lists depend on has changed. -/
theorem congr (h : ListsInv s) (hlist : t.list = s.list)
    (hpresent : ∀ k, (t.sock k).present = (s.sock k).present)
    (hallocated : ∀ k, (t.sock k).allocated = (s.sock k).allocated) : ListsInv t := by
  refine ⟨fun q => ?_, fun q k => ?_, fun q k hk => ?_⟩
  · rw [hlist]
    exact h.nodup q
  · rw [hlist, hpresent]
    exact h.mem_iff q k
  · rw [hlist] at hk
    rw [hallocated]
    exact h.allocated q k hk

theorem hold (h : ListsInv s) (k : ℕ) (d : ℤ) : ListsInv (s.hold k d) :=
  h.congr rfl (fun j => (s.sock_hold j k d).1) fun j => (s.sock_hold j k d).2

theorem count (h : ListsInv s) (q : GlueList) (f : ℕ → ℕ) : ListsInv (s.count q f) := by
  cases q with
  | read => exact h.congr rfl (fun _ => rfl) fun _ => rfl
  | write => exact h.congr rfl (fun _ => rfl) fun _ => rfl
  | accept => exact h
  | closed => exact h

theorem insertTail (h : ListsInv s) (hallocated : (s.sock k).allocated = true)
    (hnew : k ∉ s.list q) : ListsInv (s.insertTail q k) := by
  refine ⟨fun r => ?_, fun r j => ?_, fun r j hj => ?_⟩
  · rw [GlueState.list_insertTail]
    split
    next hrq =>
        subst hrq
        exact List.nodup_append.mpr ⟨h.nodup r, List.nodup_singleton k, fun x hx y hy => by
          rintro rfl
          exact hnew (List.mem_singleton.mp hy ▸ hx)⟩
    next => exact h.nodup r
  · have hflag : ((s.insertTail q k).sock j).present r =
        if j = k ∧ r = q then true else (s.sock j).present r := s.present_setSock q r j k true
    rw [GlueState.list_insertTail, hflag]
    by_cases hrq : r = q
    · subst hrq
      by_cases hjk : j = k
      · simp [hjk]
      · simp [hjk, h.mem_iff]
    · simp [hrq, h.mem_iff]
  · have hsame : ((s.insertTail q k).sock j).allocated = (s.sock j).allocated :=
      s.allocated_setPresent (fun f => Function.update f q true) j k
    rw [hsame]
    rw [GlueState.list_insertTail] at hj
    split at hj
    · rcases List.mem_append.mp hj with hold | hlast
      · exact h.allocated r j hold
      · rw [List.mem_singleton.mp hlast]
        exact hallocated
    · exact h.allocated r j hj

theorem remove (h : ListsInv s) (q : GlueList) (k : ℕ) : ListsInv (s.remove q k) := by
  refine ⟨fun r => ?_, fun r j => ?_, fun r j hj => ?_⟩
  · rw [GlueState.list_remove]
    split
    · exact (h.nodup r).erase k
    · exact h.nodup r
  · have hflag : ((s.remove q k).sock j).present r =
        if j = k ∧ r = q then false else (s.sock j).present r := s.present_setSock q r j k false
    rw [GlueState.list_remove, hflag]
    by_cases hrq : r = q
    · subst hrq
      rw [if_pos rfl, (h.nodup r).mem_erase_iff]
      by_cases hjk : j = k
      · simp [hjk]
      · simp [hjk, h.mem_iff]
    · simp [hrq, h.mem_iff]
  · have hsame : ((s.remove q k).sock j).allocated = (s.sock j).allocated :=
      s.allocated_setPresent (fun f => Function.update f q false) j k
    rw [hsame]
    rw [GlueState.list_remove] at hj
    split at hj
    · exact h.allocated r j (List.mem_of_mem_erase hj)
    · exact h.allocated r j hj

/-- A socket in no list is freed. -/
theorem kernelClose (h : ListsInv s) (hk : ∀ q, k ∉ s.list q) : ListsInv (s.kernelClose k) := by
  have hne : ∀ q j, j ∈ s.list q → j ≠ k := by
    rintro q j hj rfl
    exact hk q hj
  refine ⟨h.nodup, fun q j => ?_, fun q j hj => ?_⟩
  · by_cases hjk : j = k
    · subst hjk
      simp [GlueState.kernelClose, h.mem_iff, GlueState.setSock]
    · simp [GlueState.kernelClose, h.mem_iff, hjk, GlueState.setSock]
  · unfold GlueState.kernelClose
    rw [GlueState.sock_setSock_of_ne _ (hne q j hj)]
    exact h.allocated q j hj

/-- An address is in no list when it is handed out. -/
theorem create (h : ListsInv s) (hk : (s.sock k).allocated = false) :
    ListsInv (s.setSock k fun _ => ⟨true, fun _ => false, 0⟩) := by
  have hout : ∀ q, k ∉ s.list q := by
    intro q hq
    rw [h.allocated q k hq] at hk
    cases hk
  have hne : ∀ q j, j ∈ s.list q → j ≠ k := by
    rintro q j hj rfl
    exact hout q hj
  refine ⟨h.nodup, fun q j => ?_, fun q j hj => ?_⟩
  · by_cases hjk : j = k
    · subst hjk
      rw [GlueState.sock_setSock_self]
      exact ⟨fun hmem => absurd hmem (hout q), nofun⟩
    · rw [GlueState.sock_setSock_of_ne _ hjk]
      exact h.mem_iff q j
  · rw [GlueState.sock_setSock_of_ne _ (hne q j hj)]
    exact h.allocated q j hj

end ListsInv

/-! ## Counters and loops -/

/-- The bounded loop over `q` is at the head of round `idx`: what it has handled and what it will
take of the list are what it found. -/
structure RoundsInv (s : GlueState) (q : GlueList) (idx limit : ℕ) : Prop where
  handled_length : s.handled.length = idx
  started_length : s.started.length = limit
  split : s.handled ++ (s.list q).take (limit - idx) = s.started

/-- It is in the callback for `k` of round `idx`. -/
structure UserInv (s : GlueState) (q : GlueList) (k idx limit : ℕ) : Prop where
  handled_length : s.handled.length = idx
  started_length : s.started.length = limit
  split : s.handled ++ k :: (s.list q).take (limit - idx - 1) = s.started

/-- What holds at each program counter. -/
def LoopInv (s : GlueState) : Prop :=
  match s.pc with
  | .idle => s.handled = s.started
  | .closing => s.handled = s.started
  | .closingUser k => s.handled = s.started ∧ k ∈ s.list .closed
  | .accepting => s.handled = s.started
  | .acceptingUser k => s.handled = s.started ∧ k ∈ s.list .accept
  | .rx idx limit => RoundsInv s .read idx limit
  | .rxUser k idx limit => UserInv s .read k idx limit
  | .tx idx limit => RoundsInv s .write idx limit
  | .txUser k idx limit => UserInv s .write k idx limit

/-- What `app_glue.c` keeps while no queued socket is freed.  A loop takes a socket out of the
list before it counts it off, so inside its callback the counter is one ahead of the list. -/
structure GlueInv (s : GlueState) : Prop extends ListsInv s where
  readLen : s.readSocketsQueueLen = (s.list .read).length + if s.pc.inRxUser then 1 else 0
  writeLen : s.writeSocketsQueueLen = (s.list .write).length + if s.pc.inTxUser then 1 else 0
  running : s.exited = false
  loop : LoopInv s

section Rounds

variable {s t : GlueState} {q r : GlueList} {j k idx limit : ℕ}

theorem RoundsInv.le (h : RoundsInv s q idx limit) :
    idx ≤ limit ∧ limit - idx ≤ (s.list q).length := by
  have hlength := congrArg List.length h.split
  rw [List.length_append, List.length_take, h.handled_length, h.started_length] at hlength
  omega

theorem UserInv.lt (h : UserInv s q k idx limit) :
    idx < limit ∧ limit - idx - 1 ≤ (s.list q).length := by
  have hlength := congrArg List.length h.split
  rw [List.length_append, List.length_cons, List.length_take, h.handled_length,
    h.started_length] at hlength
  omega

/-- A socket that comes to the tail of a list is not for this loop. -/
theorem take_tail {l l' : List ℕ} {n : ℕ} (hn : n ≤ l.length) (hl : l' = l ∨ ∃ k, l' = l ++ [k]) :
    l'.take n = l.take n := by
  rcases hl with rfl | ⟨k, rfl⟩
  · rfl
  · exact List.take_append_of_le_length hn

theorem RoundsInv.grow (h : RoundsInv s q idx limit) (hhandled : t.handled = s.handled)
    (hstarted : t.started = s.started)
    (hlist : t.list q = s.list q ∨ ∃ k, t.list q = s.list q ++ [k]) : RoundsInv t q idx limit := by
  refine ⟨hhandled ▸ h.handled_length, hstarted ▸ h.started_length, ?_⟩
  rw [hhandled, hstarted, take_tail h.le.2 hlist]
  exact h.split

theorem UserInv.grow (h : UserInv s q k idx limit) (hhandled : t.handled = s.handled)
    (hstarted : t.started = s.started)
    (hlist : t.list q = s.list q ∨ ∃ j, t.list q = s.list q ++ [j]) : UserInv t q k idx limit := by
  refine ⟨hhandled ▸ h.handled_length, hstarted ▸ h.started_length, ?_⟩
  rw [hhandled, hstarted, take_tail h.lt.2 hlist]
  exact h.split

/-- The loop takes the first socket of its list. -/
theorem RoundsInv.take (h : RoundsInv s q idx limit) {rest : List ℕ} (hlist : s.list q = k :: rest)
    (hlt : idx < limit) (hhandled : t.handled = s.handled) (hstarted : t.started = s.started)
    (hrest : t.list q = rest) : UserInv t q k idx limit := by
  refine ⟨hhandled ▸ h.handled_length, hstarted ▸ h.started_length, ?_⟩
  have hpos : limit - idx = limit - idx - 1 + 1 := by omega
  have hsplit := h.split
  rw [hlist, hpos, List.take_succ_cons] at hsplit
  rw [hhandled, hstarted, hrest]
  exact hsplit

/-- The callback has returned. -/
theorem UserInv.done (h : UserInv s q k idx limit) (hhandled : t.handled = s.handled ++ [k])
    (hstarted : t.started = s.started) (hlist : t.list q = s.list q) :
    RoundsInv t q (idx + 1) limit := by
  refine ⟨?_, hstarted ▸ h.started_length, ?_⟩
  · rw [hhandled, List.length_append, h.handled_length, List.length_singleton]
  · rw [hhandled, hstarted, hlist, List.append_assoc, List.singleton_append,
      show limit - (idx + 1) = limit - idx - 1 by omega]
    exact h.split

/-- A loop that stops has handled everything it found. -/
theorem RoundsInv.stop (h : RoundsInv s q idx limit) (hstop : s.list q = [] ∨ ¬ idx < limit) :
    s.handled = s.started := by
  have hsplit := h.split
  have hle := h.le
  rcases hstop with hempty | hlimit
  · rw [hempty, List.take_nil, List.append_nil] at hsplit
    exact hsplit
  · rw [show limit - idx = 0 by omega, List.take_zero, List.append_nil] at hsplit
    exact hsplit

end Rounds

namespace GlueInv

variable {s t : GlueState} {q : GlueList} {k : ℕ}

theorem consistent (h : GlueInv s) : s.Consistent where
  nodup := h.nodup
  mem_iff := h.mem_iff
  readLen := h.readLen
  writeLen := h.writeLen
  running := h.running
  handled := by
    intro hpc
    have hloop := h.loop
    unfold LoopInv at hloop
    split at hloop
    case h_3 => exact hloop.1
    case h_5 => exact hloop.1
    case h_6 hrx =>
        rw [hrx] at hpc
        cases hpc
    case h_7 hrx =>
        rw [hrx] at hpc
        cases hpc
    case h_8 hrx =>
        rw [hrx] at hpc
        cases hpc
    case h_9 hrx =>
        rw [hrx] at hpc
        cases hpc
    all_goals exact hloop

/-- The lists may have grown at their tails. -/
theorem loop_grow (h : LoopInv s) (hpc : t.pc = s.pc) (hhandled : t.handled = s.handled)
    (hstarted : t.started = s.started)
    (hlist : ∀ q, t.list q = s.list q ∨ ∃ k, t.list q = s.list q ++ [k]) : LoopInv t := by
  have hmem : ∀ q j, j ∈ s.list q → j ∈ t.list q := by
    intro q j hj
    rcases hlist q with hsame | ⟨k, htail⟩
    · rwa [hsame]
    · rw [htail]
      exact List.mem_append_left _ hj
  unfold LoopInv at h ⊢
  rw [hpc]
  split at h
  case h_3 => exact ⟨by rw [hhandled, hstarted]; exact h.1, hmem _ _ h.2⟩
  case h_5 => exact ⟨by rw [hhandled, hstarted]; exact h.1, hmem _ _ h.2⟩
  case h_6 => exact h.grow hhandled hstarted (hlist _)
  case h_7 => exact h.grow hhandled hstarted (hlist _)
  case h_8 => exact h.grow hhandled hstarted (hlist _)
  case h_9 => exact h.grow hhandled hstarted (hlist _)
  all_goals
    rw [hhandled, hstarted]
    exact h

/-- The flags of a socket, its references and whether it is allocated change, and no list. -/
theorem setSock (h : GlueInv s) {f : GlueSock → GlueSock} (hlists : ListsInv (s.setSock k f)) :
    GlueInv (s.setSock k f) where
  toListsInv := hlists
  readLen := h.readLen
  writeLen := h.writeLen
  running := h.running
  loop := loop_grow h.loop rfl rfl rfl fun _ => .inl rfl

/-- One of the four callbacks. -/
theorem enter (h : GlueInv s) (q : GlueList) (k : ℕ) : GlueInv (s.enter q k) := by
  unfold GlueState.enter
  split
  next => exact h
  next hnot =>
      rw [not_or, Bool.not_eq_false, Bool.not_eq_true] at hnot
      obtain ⟨hallocated, habsent⟩ := hnot
      have hnew : k ∉ s.list q := by
        rw [h.mem_iff, habsent]
        exact Bool.false_ne_true
      have hlists : ListsInv ((s.hold k 1).insertTail q k) := by
        refine (h.toListsInv.hold k 1).insertTail ?_ hnew
        rw [(s.sock_hold k k 1).2]
        exact hallocated
      obtain ⟨hlist, -, hpc, hexited, hstarted, hhandled⟩ :=
        ((s.hold k 1).insertTail q k).count_frame q (· + 1)
      have hlist : ∀ r, (((s.hold k 1).insertTail q k).count q (· + 1)).list r =
          if r = q then s.list r ++ [k] else s.list r := by
        intro r
        rw [hlist]
        exact (s.hold k 1).list_insertTail q r k
      have hlength : ∀ r, ((((s.hold k 1).insertTail q k).count q (· + 1)).list r).length =
          (s.list r).length + if r = q then 1 else 0 := by
        intro r
        rw [hlist]
        split
        · exact List.length_append
        · rfl
      refine ⟨hlists.count q _, ?_, ?_, hexited.trans h.running, ?_⟩
      · have hread := h.readLen
        rw [GlueState.readLen_count, hlength, hpc]
        show (if q = .read then s.readSocketsQueueLen + 1 else s.readSocketsQueueLen) =
          _ + _ + if s.pc.inRxUser then 1 else 0
        rw [hread]
        by_cases hq : q = .read
        · rw [if_pos hq, if_pos hq.symm]
          exact Nat.add_right_comm _ _ _
        · rw [if_neg hq, if_neg (Ne.symm hq), Nat.add_zero]
      · have hwrite := h.writeLen
        rw [GlueState.writeLen_count, hlength, hpc]
        show (if q = .write then s.writeSocketsQueueLen + 1 else s.writeSocketsQueueLen) =
          _ + _ + if s.pc.inTxUser then 1 else 0
        rw [hwrite]
        by_cases hq : q = .write
        · rw [if_pos hq, if_pos hq.symm]
          exact Nat.add_right_comm _ _ _
        · rw [if_neg hq, if_neg (Ne.symm hq), Nat.add_zero]
      · refine loop_grow h.loop hpc hhandled hstarted fun r => ?_
        rw [hlist]
        split
        · exact .inr ⟨k, rfl⟩
        · exact .inl rfl

/-- The fatal check of `app_glue_sock_readable` does not strike. -/
theorem readable_eq (h : GlueInv s) (k : ℕ) : s.appGlueSockReadable k = s.enter .read k := by
  unfold GlueState.appGlueSockReadable
  split
  next hfatal =>
      obtain ⟨-, hpresent, hzero⟩ := hfatal
      have hmem : k ∈ s.list .read := (h.mem_iff .read k).mpr hpresent
      have hpos := List.length_pos_of_mem hmem
      have hread := h.readLen
      omega
  next => rfl

theorem create (h : GlueInv s) (hk : (s.sock k).allocated = false) :
    GlueInv (s.setSock k fun _ => ⟨true, fun _ => false, 0⟩) :=
  h.setSock (h.toListsInv.create hk)

/-- Lists and counters between two operations. -/
structure Resting (s t : GlueState) : Prop where
  lists : ListsInv t
  readLen : t.readSocketsQueueLen = (t.list .read).length
  writeLen : t.writeSocketsQueueLen = (t.list .write).length
  sub : ∀ q, t.list q ⊆ s.list q
  pc : t.pc = s.pc
  exited : t.exited = s.exited
  started : t.started = s.started
  handled : t.handled = s.handled

theorem Resting.self (h : Resting s t) : Resting t t :=
  ⟨h.lists, h.readLen, h.writeLen, fun _ => List.Subset.refl _, rfl, rfl, rfl, rfl⟩

theorem Resting.trans {u : GlueState} (h : Resting s t) (h' : Resting t u) : Resting s u where
  lists := h'.lists
  readLen := h'.readLen
  writeLen := h'.writeLen
  sub q := List.Subset.trans (h'.sub q) (h.sub q)
  pc := h'.pc.trans h.pc
  exited := h'.exited.trans h.exited
  started := h'.started.trans h.started
  handled := h'.handled.trans h.handled

/-- A removed socket is counted out of its list and of no other. -/
theorem length_remove (hk : k ∈ s.list q) (r : GlueList) :
    ((s.remove q k).list r).length = (s.list r).length - if r = q then 1 else 0 := by
  rw [GlueState.list_remove]
  split
  next hrq =>
      subst hrq
      exact List.length_erase_of_mem hk
  next => rfl

/-- A branch of `app_glue_close_socket`. -/
theorem Resting.leave (h : Resting s t) (q : GlueList) (k : ℕ) :
    Resting s (t.leave q k) ∧ k ∉ (t.leave q k).list q := by
  unfold GlueState.leave
  split
  next hpresent =>
      have hk : k ∈ t.list q := (h.lists.mem_iff q k).mpr hpresent
      have hpos := List.length_pos_of_mem hk
      obtain ⟨hlist, -, hpc, hexited, hstarted, hhandled⟩ := (t.remove q k).count_frame q (· - 1)
      have hlength := length_remove hk
      have hsub : ∀ r, (t.remove q k).list r ⊆ t.list r := by
        intro r
        rw [GlueState.list_remove]
        split
        · exact List.erase_subset
        · exact List.Subset.refl _
      refine ⟨⟨(h.lists.remove q k).count q _, ?_, ?_, fun r => ?_, hpc.trans h.pc,
        hexited.trans h.exited, hstarted.trans h.started, hhandled.trans h.handled⟩, ?_⟩
      · rw [GlueState.readLen_count, hlist, hlength]
        show (if q = .read then t.readSocketsQueueLen - 1 else t.readSocketsQueueLen) = _
        rw [h.readLen]
        by_cases hq : q = .read
        · rw [if_pos hq, if_pos hq.symm]
        · rw [if_neg hq, if_neg (Ne.symm hq), Nat.sub_zero]
      · rw [GlueState.writeLen_count, hlist, hlength]
        show (if q = .write then t.writeSocketsQueueLen - 1 else t.writeSocketsQueueLen) = _
        rw [h.writeLen]
        by_cases hq : q = .write
        · rw [if_pos hq, if_pos hq.symm]
        · rw [if_neg hq, if_neg (Ne.symm hq), Nat.sub_zero]
      · rw [hlist]
        exact List.Subset.trans (hsub r) (h.sub r)
      · rw [hlist, GlueState.list_remove, if_pos rfl]
        exact (h.lists.nodup q).not_mem_erase
  next habsent =>
      refine ⟨h, ?_⟩
      rw [h.lists.mem_iff]
      exact habsent

/-- `app_glue_close_socket`, between two operations. -/
theorem closeSocket (h : GlueInv s) (hpc : s.pc = .idle) (k : ℕ) :
    GlueInv (s.appGlueCloseSocket k) := by
  have hread : s.readSocketsQueueLen = (s.list .read).length := by
    have hread := h.readLen
    rw [hpc] at hread
    exact hread
  have hwrite : s.writeSocketsQueueLen = (s.list .write).length := by
    have hwrite := h.writeLen
    rw [hpc] at hwrite
    exact hwrite
  have hstart : Resting s s :=
    ⟨h.toListsInv, hread, hwrite, fun _ => List.Subset.refl _, rfl, rfl, rfl, rfl⟩
  obtain ⟨h₁, hread₁⟩ := hstart.leave .read k
  obtain ⟨h₂, hwrite₂⟩ := h₁.self.leave .write k
  obtain ⟨h₃, haccept₃⟩ := h₂.self.leave .accept k
  obtain ⟨h₄, hclosed₄⟩ := h₃.self.leave .closed k
  have hrest := ((h₁.trans h₂).trans h₃).trans h₄
  have hout : ∀ q, k ∉ ((((s.leave .read k).leave .write k).leave .accept k).leave .closed k).list q
    | .read => fun hmem => hread₁ (h₂.sub _ (h₃.sub _ (h₄.sub _ hmem)))
    | .write => fun hmem => hwrite₂ (h₃.sub _ (h₄.sub _ hmem))
    | .accept => fun hmem => haccept₃ (h₄.sub _ hmem)
    | .closed => hclosed₄
  have hidle : (s.appGlueCloseSocket k).pc = .idle := hrest.pc.trans hpc
  refine ⟨hrest.lists.kernelClose hout, ?_, ?_, hrest.exited.trans h.running, ?_⟩
  · rw [hidle]
    exact hrest.readLen
  · rw [hidle]
    exact hrest.writeLen
  · have hloop := h.loop
    unfold LoopInv at hloop ⊢
    rw [hpc] at hloop
    rw [hidle]
    exact (hrest.handled.trans hloop).trans hrest.started.symm

/-- The closed list hands over a socket that is in no other list. -/
theorem advance_closing (h : GlueInv s) (hpc : s.pc = .closingUser k)
    (hfree : ∀ q, q ≠ .closed → k ∉ s.list q) :
    GlueInv { ((s.remove .closed k).hold k (-1)).kernelClose k with pc := .closing } := by
  have hloop := h.loop
  have hread := h.readLen
  have hwrite := h.writeLen
  unfold LoopInv at hloop
  rw [hpc] at hloop hread hwrite
  have hlists : ListsInv (((s.remove .closed k).hold k (-1)).kernelClose k) := by
    refine ((h.toListsInv.remove .closed k).hold k (-1)).kernelClose fun q => ?_
    show k ∉ (s.remove .closed k).list q
    rw [GlueState.list_remove]
    split
    next hq =>
        subst hq
        exact (h.nodup _).not_mem_erase
    next hq => exact hfree q hq
  exact ⟨hlists.congr rfl (fun _ => rfl) fun _ => rfl, hread, hwrite, h.running, hloop.1⟩

theorem advance_accepting (h : GlueInv s) (hpc : s.pc = .acceptingUser k) :
    GlueInv { (s.remove .accept k).hold k (-1) with pc := .accepting } := by
  have hloop := h.loop
  have hread := h.readLen
  have hwrite := h.writeLen
  unfold LoopInv at hloop
  rw [hpc] at hloop hread hwrite
  have hlists := (h.toListsInv.remove .accept k).hold k (-1)
  exact ⟨hlists.congr rfl (fun _ => rfl) fun _ => rfl, hread, hwrite, h.running, hloop.1⟩

/-- The loop over the read list takes its next socket. -/
theorem advance_rx (h : GlueInv s) {idx limit : ℕ} {rest : List ℕ} (hpc : s.pc = .rx idx limit)
    (hlist : s.list .read = k :: rest) (hlt : idx < limit) :
    GlueInv { s.remove .read k with pc := .rxUser k idx limit } := by
  have hloop := h.loop
  have hread := h.readLen
  have hwrite := h.writeLen
  unfold LoopInv at hloop
  rw [hpc] at hloop hread hwrite
  have hrest : (s.remove .read k).list .read = rest := by
    rw [GlueState.list_remove, if_pos rfl, hlist, List.erase_cons_head]
  have hlists := h.toListsInv.remove .read k
  refine ⟨hlists.congr rfl (fun _ => rfl) fun _ => rfl, ?_, ?_, h.running, ?_⟩
  · show s.readSocketsQueueLen = ((s.remove .read k).list .read).length + 1
    rw [hread, hrest, hlist]
    rfl
  · exact hwrite
  · exact hloop.take hlist hlt rfl rfl hrest

theorem advance_tx (h : GlueInv s) {idx limit : ℕ} {rest : List ℕ} (hpc : s.pc = .tx idx limit)
    (hlist : s.list .write = k :: rest) (hlt : idx < limit) :
    GlueInv { s.remove .write k with pc := .txUser k idx limit } := by
  have hloop := h.loop
  have hread := h.readLen
  have hwrite := h.writeLen
  unfold LoopInv at hloop
  rw [hpc] at hloop hread hwrite
  have hrest : (s.remove .write k).list .write = rest := by
    rw [GlueState.list_remove, if_pos rfl, hlist, List.erase_cons_head]
  have hlists := h.toListsInv.remove .write k
  refine ⟨hlists.congr rfl (fun _ => rfl) fun _ => rfl, ?_, ?_, h.running, ?_⟩
  · exact hread
  · show s.writeSocketsQueueLen = ((s.remove .write k).list .write).length + 1
    rw [hwrite, hrest, hlist]
    rfl
  · exact hloop.take hlist hlt rfl rfl hrest

/-- A callback of the loop over the read list returns. -/
theorem advance_rxUser (h : GlueInv s) {idx limit : ℕ} (hpc : s.pc = .rxUser k idx limit) :
    GlueInv { (s.hold k (-1)).count .read (· - 1) with
      pc := .rx (idx + 1) limit, handled := s.handled ++ [k] } := by
  have hloop := h.loop
  have hread := h.readLen
  have hwrite := h.writeLen
  unfold LoopInv at hloop
  rw [hpc] at hloop hread hwrite
  have hlists := (h.toListsInv.hold k (-1)).count .read (· - 1)
  refine ⟨hlists.congr rfl (fun _ => rfl) fun _ => rfl, ?_, hwrite, h.running, ?_⟩
  · show s.readSocketsQueueLen - 1 = _
    rw [hread]
    rfl
  · exact hloop.done rfl rfl rfl

theorem advance_txUser (h : GlueInv s) {idx limit : ℕ} (hpc : s.pc = .txUser k idx limit) :
    GlueInv { (s.hold k (-1)).count .write (· - 1) with
      pc := .tx (idx + 1) limit, handled := s.handled ++ [k] } := by
  have hloop := h.loop
  have hread := h.readLen
  have hwrite := h.writeLen
  unfold LoopInv at hloop
  rw [hpc] at hloop hread hwrite
  have hlists := (h.toListsInv.hold k (-1)).count .write (· - 1)
  refine ⟨hlists.congr rfl (fun _ => rfl) fun _ => rfl, hread, ?_, h.running, ?_⟩
  · show s.writeSocketsQueueLen - 1 = _
    rw [hwrite]
    rfl
  · exact hloop.done rfl rfl rfl

/-- The program counter moves where no callback runs, and the loops are as they should be. -/
theorem movePc (h : GlueInv s) (hlist : t.list = s.list) (hsock : t.sock = s.sock)
    (hexited : t.exited = s.exited) (hread : t.readSocketsQueueLen = s.readSocketsQueueLen)
    (hwrite : t.writeSocketsQueueLen = s.writeSocketsQueueLen)
    (hrx : t.pc.inRxUser = s.pc.inRxUser) (htx : t.pc.inTxUser = s.pc.inTxUser)
    (hloop : LoopInv t) : GlueInv t where
  toListsInv := h.toListsInv.congr hlist (fun _ => by rw [hsock]) fun _ => by rw [hsock]
  readLen := by
    rw [hread, hlist, hrx]
    exact h.readLen
  writeLen := by
    rw [hwrite, hlist, htx]
    exact h.writeLen
  running := hexited.trans h.running
  loop := hloop

/-- A bounded loop starts with the counter of its list. -/
theorem rounds_start {q : GlueList} {limit : ℕ} (hlimit : limit = (s.list q).length)
    (hstarted : t.started = s.list q) (hhandled : t.handled = []) (hlist : t.list q = s.list q) :
    RoundsInv t q 0 limit := by
  refine ⟨by rw [hhandled]; rfl, by rw [hstarted, hlimit], ?_⟩
  rw [hhandled, hstarted, hlist, hlimit, Nat.sub_zero, List.take_length, List.nil_append]

/-- The processing loop goes on, and frees no socket that is in another list. -/
theorem advance (h : GlueInv s) (hfree : ¬ s.freesQueued) (ht : s.advance = some t) :
    GlueInv t := by
  have hloop := h.loop
  unfold LoopInv at hloop
  unfold GlueState.advance at ht
  cases hpc : s.pc with
  | idle =>
      rw [hpc] at ht
      cases ht
  | closing =>
      rw [hpc] at ht hloop
      cases hlist : s.list .closed with
      | nil =>
          simp only [hlist, Option.some.injEq] at ht
          subst ht
          exact h.movePc rfl rfl rfl rfl rfl (by rw [hpc]; rfl) (by rw [hpc]; rfl) hloop
      | cons k rest =>
          simp only [hlist, Option.some.injEq] at ht
          subst ht
          refine h.movePc rfl rfl rfl rfl rfl (by rw [hpc]; rfl) (by rw [hpc]; rfl) ⟨hloop, ?_⟩
          show k ∈ s.list .closed
          rw [hlist]
          exact List.mem_cons_self
  | closingUser k =>
      rw [hpc] at ht
      cases ht
      exact h.advance_closing hpc fun q hq hk => hfree ⟨k, hpc, q, hq, hk⟩
  | accepting =>
      rw [hpc] at ht hloop
      cases hlist : s.list .accept with
      | nil =>
          simp only [hlist, Option.some.injEq] at ht
          subst ht
          refine h.movePc rfl rfl rfl rfl rfl (by rw [hpc]; rfl) (by rw [hpc]; rfl) ?_
          have hread := h.readLen
          rw [hpc] at hread
          exact rounds_start hread rfl rfl rfl
      | cons k rest =>
          simp only [hlist, Option.some.injEq] at ht
          subst ht
          refine h.movePc rfl rfl rfl rfl rfl (by rw [hpc]; rfl) (by rw [hpc]; rfl) ⟨hloop, ?_⟩
          show k ∈ s.list .accept
          rw [hlist]
          exact List.mem_cons_self
  | acceptingUser k =>
      rw [hpc] at ht
      cases ht
      exact h.advance_accepting hpc
  | rx idx limit =>
      rw [hpc] at ht hloop
      cases hlist : s.list .read with
      | nil =>
          simp only [hlist, Option.some.injEq] at ht
          subst ht
          exact h.movePc rfl rfl rfl rfl rfl (by rw [hpc]; rfl) (by rw [hpc]; rfl)
            (hloop.stop (.inl hlist))
      | cons k rest =>
          simp only [hlist] at ht
          split at ht
          next hlt =>
              cases ht
              exact h.advance_rx hpc hlist hlt
          next hge =>
              cases ht
              exact h.movePc rfl rfl rfl rfl rfl (by rw [hpc]; rfl) (by rw [hpc]; rfl)
                (hloop.stop (.inr hge))
  | rxUser k idx limit =>
      rw [hpc] at ht
      cases ht
      exact h.advance_rxUser hpc
  | tx idx limit =>
      rw [hpc] at ht hloop
      cases hlist : s.list .write with
      | nil =>
          simp only [hlist, Option.some.injEq] at ht
          subst ht
          exact h.movePc rfl rfl rfl rfl rfl (by rw [hpc]; rfl) (by rw [hpc]; rfl)
            (hloop.stop (.inl hlist))
      | cons k rest =>
          simp only [hlist] at ht
          split at ht
          next hlt =>
              cases ht
              exact h.advance_tx hpc hlist hlt
          next hge =>
              cases ht
              exact h.movePc rfl rfl rfl rfl rfl (by rw [hpc]; rfl) (by rw [hpc]; rfl)
                (hloop.stop (.inr hge))
  | txUser k idx limit =>
      rw [hpc] at ht
      cases ht
      exact h.advance_txUser hpc

end GlueInv

/-! ## Runs -/

/-- The closed list never hands over a socket that is in another list.  The four
`app_glue_get_next_...` functions are for an application that has no processing loops. -/
def glueOk (s : GlueState) : GlueStep → Prop
  | .advance => ¬ s.freesQueued
  | .getNext _ => False
  | _ => True

theorem glueInv_init : GlueInv glueMachine.init where
  nodup _ := List.nodup_nil
  mem_iff _ _ := ⟨nofun, nofun⟩
  allocated _ _ := nofun
  readLen := rfl
  writeLen := rfl
  running := rfl
  loop := rfl

theorem glueInv_step {s t : GlueState} {a : GlueStep} (h : GlueInv s)
    (hadvance : a = .advance → ¬ s.freesQueued) (hnext : ∀ q, a = .getNext q → s.list q = [])
    (ht : glueMachine.step s a = some t) : GlueInv t := by
  simp only [glueMachine, h.running, Bool.false_eq_true, if_false] at ht
  cases a with
  | create k =>
      dsimp only at ht
      split at ht
      next => cases ht
      next hk =>
          cases ht
          exact h.create (Bool.not_eq_true _ ▸ hk)
  | readable k =>
      cases ht
      rw [h.readable_eq]
      exact h.enter .read k
  | writeSpace k =>
      cases ht
      exact h.enter .write k
  | errorReport k =>
      cases ht
      exact h.enter .closed k
  | wakeup k =>
      cases ht
      exact h.enter .accept k
  | processRxReadySockets =>
      dsimp only at ht
      split at ht
      next hpc =>
          cases ht
          have hloop := h.loop
          unfold LoopInv at hloop
          rw [hpc] at hloop
          exact h.movePc rfl rfl h.running.symm rfl rfl (by rw [hpc]; rfl) (by rw [hpc]; rfl) hloop
      next => cases ht
  | processTxReadySockets =>
      dsimp only at ht
      split at ht
      next hpc =>
          cases ht
          refine h.movePc rfl rfl h.running.symm rfl rfl (by rw [hpc]; rfl) (by rw [hpc]; rfl) ?_
          have hwrite := h.writeLen
          rw [hpc] at hwrite
          exact GlueInv.rounds_start hwrite rfl rfl rfl
      next => cases ht
  | advance => exact h.advance (hadvance rfl) ht
  | closeSocket k =>
      dsimp only at ht
      split at ht
      next hidle =>
          cases ht
          exact h.closeSocket hidle.1 k
      next => cases ht
  | getNext q =>
      dsimp only at ht
      split at ht
      next =>
          rw [hnext q rfl] at ht
          cases ht
          exact h
      next => cases ht

theorem glueInv_run {s : GlueState} (h : glueMachine.ReachableWhere glueOk s) : GlueInv s := by
  refine glueMachine.invariant_of_step glueInv_init (fun s a t hs hok ht => ?_) h
  refine glueInv_step hs ?_ ?_ ht
  · rintro rfl
    exact hok
  · rintro q rfl
    exact hok.elim

/-- A callback of the stack leaves the processing loop where it is. -/
theorem GlueState.pc_enter (s : GlueState) (q : GlueList) (k : ℕ) : (s.enter q k).pc = s.pc := by
  unfold GlueState.enter
  split
  · rfl
  · exact (((s.hold k 1).insertTail q k).count_frame q (· + 1)).2.2.1

/-- Inside a bounded loop only `advance` moves on. -/
theorem pc_step {s t : GlueState} {a : GlueStep} (hpc : s.pc.bounded = true) (ha : a ≠ .advance)
    (ht : glueMachine.step s a = some t) : t.pc = s.pc := by
  have hbusy : s.pc ≠ .idle := by
    intro hidle
    rw [hidle] at hpc
    cases hpc
  unfold glueMachine at ht
  dsimp only at ht
  split at ht
  next => cases ht
  next =>
      cases a with
      | create k =>
          dsimp only at ht
          split at ht
          · cases ht
          · cases ht
            rfl
      | readable k =>
          cases ht
          unfold GlueState.appGlueSockReadable
          split
          · rfl
          · exact s.pc_enter .read k
      | writeSpace k =>
          cases ht
          exact s.pc_enter .write k
      | errorReport k =>
          cases ht
          exact s.pc_enter .closed k
      | wakeup k =>
          cases ht
          exact s.pc_enter .accept k
      | processRxReadySockets =>
          cases ht
      | processTxReadySockets =>
          cases ht
      | advance => exact absurd rfl ha
      | closeSocket k =>
          dsimp only at ht
          rw [if_neg fun hidle => hbusy hidle.1] at ht
          cases ht
      | getNext q =>
          cases ht

/-- A round of a bounded loop has an end. -/
theorem GlueInv.left_advance {s : GlueState} (h : GlueInv s) (hpc : s.pc.bounded = true) :
    ∃ t, s.advance = some t ∧ t.pc.left < s.pc.left := by
  have hloop := h.loop
  unfold LoopInv at hloop
  unfold GlueState.advance
  cases hat : s.pc with
  | rx idx limit =>
      cases hlist : s.list .read with
      | nil => exact ⟨_, rfl, Nat.succ_pos _⟩
      | cons k rest =>
          by_cases hlt : idx < limit
          · simp only [hlt, if_true]
            exact ⟨_, rfl, Nat.lt_succ_self _⟩
          · simp only [hlt, if_false]
            exact ⟨_, rfl, Nat.succ_pos _⟩
  | rxUser k idx limit =>
      rw [hat] at hloop
      have hlt := hloop.lt.1
      refine ⟨_, rfl, ?_⟩
      show 2 * (limit - (idx + 1)) + 1 < 2 * (limit - idx)
      omega
  | tx idx limit =>
      cases hlist : s.list .write with
      | nil => exact ⟨_, rfl, Nat.succ_pos _⟩
      | cons k rest =>
          by_cases hlt : idx < limit
          · simp only [hlt, if_true]
            exact ⟨_, rfl, Nat.lt_succ_self _⟩
          · simp only [hlt, if_false]
            exact ⟨_, rfl, Nat.succ_pos _⟩
  | txUser k idx limit =>
      rw [hat] at hloop
      have hlt := hloop.lt.1
      refine ⟨_, rfl, ?_⟩
      show 2 * (limit - (idx + 1)) + 1 < 2 * (limit - idx)
      omega
  | _ =>
      rw [hat] at hpc
      cases hpc

theorem GlueInv.loopEnds {s : GlueState} (h : GlueInv s) : s.LoopEnds := by
  intro hpc
  refine ⟨?_, fun _ _ ha ht => pc_step hpc ha ht⟩
  obtain ⟨t, ht, hleft⟩ := h.left_advance hpc
  refine ⟨t, ?_, hleft⟩
  simp only [glueMachine, h.running, Bool.false_eq_true, if_false]
  exact ht

/-- **The ready queues agree** with their flags and counters, the fatal check of
`app_glue_sock_readable` never strikes and the bounded loops end with what they found handled, in
every run in which the closed list never hands over a socket that is in another list. -/
theorem queues_consistent {s : GlueState} (h : glueMachine.ReachableWhere glueOk s) :
    s.Consistent ∧ s.LoopEnds :=
  ⟨(glueInv_run h).consistent, (glueInv_run h).loopEnds⟩

instance (s : GlueState) : Decidable s.freesQueued :=
  match hpc : s.pc with
  | .closingUser k =>
      decidable_of_iff (k ∈ s.list .read ∨ k ∈ s.list .write ∨ k ∈ s.list .accept) <| by
        refine ⟨fun h => ⟨k, hpc, ?_⟩, fun ⟨j, hj, q, hq, hmem⟩ => ?_⟩
        · rcases h with h | h | h
          exacts [⟨.read, nofun, h⟩, ⟨.write, nofun, h⟩, ⟨.accept, nofun, h⟩]
        · rw [hpc, GluePc.closingUser.injEq] at hj
          subst hj
          cases q with
          | read => exact .inl hmem
          | write => exact .inr (.inl hmem)
          | accept => exact .inr (.inr hmem)
          | closed => exact absurd rfl hq
  | .idle => isFalse fun ⟨_, hj, _⟩ => by simp [hpc] at hj
  | .closing => isFalse fun ⟨_, hj, _⟩ => by simp [hpc] at hj
  | .accepting => isFalse fun ⟨_, hj, _⟩ => by simp [hpc] at hj
  | .acceptingUser _ => isFalse fun ⟨_, hj, _⟩ => by simp [hpc] at hj
  | .rx _ _ => isFalse fun ⟨_, hj, _⟩ => by simp [hpc] at hj
  | .rxUser _ _ _ => isFalse fun ⟨_, hj, _⟩ => by simp [hpc] at hj
  | .tx _ _ => isFalse fun ⟨_, hj, _⟩ => by simp [hpc] at hj
  | .txUser _ _ _ => isFalse fun ⟨_, hj, _⟩ => by simp [hpc] at hj

instance (s : GlueState) : ∀ a, Decidable (glueOk s a)
  | .advance => inferInstanceAs (Decidable (¬ s.freesQueued))
  | .getNext _ => .isFalse id
  | .create _ => .isTrue trivial
  | .readable _ => .isTrue trivial
  | .writeSpace _ => .isTrue trivial
  | .errorReport _ => .isTrue trivial
  | .wakeup _ => .isTrue trivial
  | .processRxReadySockets => .isTrue trivial
  | .processTxReadySockets => .isTrue trivial
  | .closeSocket _ => .isTrue trivial

/-- Two sockets become readable; the second comes back to the list from inside its callback and
the loop does not take it again. -/
def reenterReadable : List GlueStep :=
  [.create 0, .create 1, .readable 0, .readable 1, .processRxReadySockets, .advance, .advance,
    .advance, .advance, .advance, .readable 1, .advance]

theorem queues_consistent_reenter :
    ∃ s, glueMachine.ReachableWhere glueOk s ∧ s.list .read = [1] ∧ s.handled = [0, 1] ∧
      s.Consistent ∧ s.LoopEnds := by
  have hrun : ((glueMachine.restrict glueOk).run reenterReadable).map
      (fun s => (s.list .read, s.handled)) = some ([1], [0, 1]) := by decide +kernel
  obtain ⟨s, hs, hview⟩ := Option.map_eq_some_iff.mp hrun
  have hreach := Machine.reachableWhere_of_run _ hs
  obtain ⟨hlist, hhandled⟩ := Prod.mk.inj hview
  exact ⟨s, hreach, hlist, hhandled, queues_consistent hreach⟩

/-- A readable socket fails: the closed list frees it, and the socket that gets its address next
is in the read list and does not know. -/
theorem freed_socket_stays_readable : ∃ s, glueMachine.run
    [.create 0, .readable 0, .errorReport 0, .processRxReadySockets, .advance, .advance,
      .create 0] = some s ∧ 0 ∈ s.list .read ∧ (s.sock 0).present .read = false ∧
    ¬ s.Consistent := by
  refine ⟨_, rfl, by decide, by decide, fun h => ?_⟩
  have hflag := (h.mem_iff .read 0).mp (by decide)
  exact absurd hflag (by decide)

end IpAugenblick
