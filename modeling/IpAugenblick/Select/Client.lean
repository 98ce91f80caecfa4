/-
# The ready cache and the fdsets of a client

A client process keeps for every socket the readiness it has been told of, and for
every selector in level mode a list of the sockets that are ready.
`ipaugenblick_select` looks at the list first and at the selector's ready ring when
the list has nothing for the three fdsets; what it takes from the ring goes to the
masks and the list.

Every call of the library that touches these is one step.  What a call does not
touch here (commands, data, addresses) is left out; a call that finds no command
buffer returns before it touches any of this.
-/

import IpAugenblick.Lib.TailQueue
import IpAugenblick.Service.Arrays

namespace IpAugenblick

open Lib

/-- `struct ipaugenblick_fdset`. -/
structure Fdset where
  interestedFlags : ℕ → Bool
  returnedFlags : ℕ → Bool
  returnedSockets : ℕ → ℕ
  returnedIdx : ℕ

namespace Fdset

/-- `ipaugenblick_fdzero`. -/
def fdzero : Fdset where
  interestedFlags _ := false
  returnedFlags _ := false
  returnedSockets _ := 0
  returnedIdx := 0

variable (f : Fdset)

/-- What `ipaugenblick_fdset` does with the fdset. -/
def fdset (sock : ℕ) : Fdset :=
  { f with interestedFlags := Function.update f.interestedFlags sock true }

/-- What `ipaugenblick_fdclear` does with the fdset. -/
def fdclear (sock : ℕ) : Fdset :=
  { f with
    interestedFlags := Function.update f.interestedFlags sock false
    returnedFlags := Function.update f.returnedFlags sock false }

/-- `ipaugenblick_update_fdset`.  Nobody looks at what it returns. -/
def updateFdset (idx : ℕ) : Fdset :=
  if f.interestedFlags idx then
    if f.returnedFlags idx then f
    else
      { f with
        returnedSockets := Function.update f.returnedSockets f.returnedIdx idx
        returnedFlags := Function.update f.returnedFlags idx true
        returnedIdx := f.returnedIdx + 1 }
  else f

/-- The flags after the first `n` elements of `returned_sockets` have been cleared. -/
def clearFlags : ℕ → ℕ → Bool
  | 0 => f.returnedFlags
  | n + 1 => Function.update (clearFlags n) (f.returnedSockets n) false

/-- What `ipaugenblick_select` does with an fdset first. -/
def clearReturned : Fdset :=
  { f with returnedFlags := f.clearFlags f.returnedIdx, returnedIdx := 0 }

end Fdset

def hasBit (mask : BitVec 32) (bit : ReadyBit) : Bool := mask &&& bit.mask != 0

/-- `timeout` of `ipaugenblick_select`. -/
inductive SelectTimeout
  | null
  | zero
  | positive
  deriving DecidableEq, Repr

/-- One look at the ready ring: what has arrived since the last one, and whether
somebody else takes entries between the count and the dequeue, which then fails. -/
structure SelectRound where
  arrived : List (BitVec 32)
  contended : Bool
  deriving DecidableEq, Repr

/-- A call of `ipaugenblick_select`; an fdset is given by its address. -/
structure SelectCall where
  selector : ℤ
  readfdset : Option ℕ
  writefdset : Option ℕ
  excfdset : Option ℕ
  timeout : SelectTimeout
  rounds : List SelectRound
  deriving DecidableEq, Repr

/-- The state of the library. -/
structure SelectClient where
  /-- `local_socket_descriptors`. -/
  descr : ℕ → SocketDescr
  /-- `level_mode` of `selectors`, and what stands in front of the array. -/
  levelMode : ℤ → Bool
  queueLength : ℤ → ℤ
  localReadyCache : TailQueues ℤ ℕ
  readyConnections : ℤ → List (BitVec 32)
  /-- The fdsets by their addresses; `none` before `ipaugenblick_fdzero`. -/
  fdsets : ℕ → Option Fdset
  /-- A pointer was stored through null or through `selectors[-1]`. -/
  wild : Bool

namespace SelectClient

variable (c : SelectClient)

def setDescr (sock : ℕ) (d : SocketDescr) : SelectClient :=
  { c with descr := Function.update c.descr sock d }

/-- `_ipaugenblick_remove_socket_from_cache`. -/
def removeSocketFromCache (sock : ℕ) : SelectClient :=
  let d := c.descr sock
  if d.select ≠ -1 ∧ d.presentInReadyCache then
    if c.levelMode d.select then
      match c.localReadyCache.remove d.select sock with
      | none => { c with wild := true }
      | some cache =>
          { c.setDescr sock { d with presentInReadyCache := false } with
            localReadyCache := cache
            queueLength :=
              Function.update c.queueLength d.select (c.queueLength d.select - 1) }
    else c
  else c

/-- `ipaugenblick_update_local_ready_cache`. -/
def updateLocalReadyCache (sock : ℕ) (bit : ReadyBit) : SelectClient :=
  let d := c.descr sock
  if d.select = -1 then c
  else
    let mask := d.localMask &&& ~~~bit.mask
    let c := c.setDescr sock { d with localMask := mask }
    if mask ≠ 0 then c else c.removeSocketFromCache sock

/-- `ipaugenblick_put_to_local_cache`. -/
def putToLocalCache (sock : ℕ) : SelectClient :=
  let d := c.descr sock
  if d.localMask = 0 then c
  else if d.presentInReadyCache then c
  else if c.levelMode d.select then
    if d.select = -1 then { c with wild := true }
    else
      { c.setDescr sock { d with presentInReadyCache := true } with
        localReadyCache := c.localReadyCache.insertTail d.select sock
        queueLength := Function.update c.queueLength d.select (c.queueLength d.select + 1) }
  else c

/-- `ipaugenblick_reset_local_descriptor`. -/
def resetLocalDescriptor (sock : ℕ) : SelectClient :=
  { c.setDescr sock { c.descr sock with presentInReadyCache := false, localMask := 0 } with
    localReadyCache := c.localReadyCache.zero sock }

def setSelect (sock : ℕ) (select : ℤ) : SelectClient :=
  c.setDescr sock { c.descr sock with select := select }

def modifyFdset (address : Option ℕ) (change : Fdset → Fdset) : SelectClient :=
  match address with
  | none => c
  | some a => { c with fdsets := Function.update c.fdsets a ((c.fdsets a).map change) }

/-- `returned_idx`, where there is an fdset. -/
def returnedIdx (address : Option ℕ) : ℕ :=
  ((address.bind c.fdsets).map Fdset.returnedIdx).getD 0

/-! ## `ipaugenblick_select` -/

/-- The fdsets of the call are cleared. -/
def clearReturned (call : SelectCall) : SelectClient :=
  ((c.modifyFdset call.readfdset .clearReturned).modifyFdset call.writefdset
    .clearReturned).modifyFdset call.excfdset .clearReturned

/-- Report a socket to an fdset when its mask has the bit. -/
def report (address : Option ℕ) (mask : BitVec 32) (bit : ReadyBit) (idx : ℕ) : SelectClient :=
  if hasBit mask bit then c.modifyFdset address fun f => f.updateFdset idx else c

/-- What `ipaugenblick_select` does with a socket of the list.  That it asks for the
interest before `ipaugenblick_update_fdset` asks again makes no difference. -/
def selectCached (call : SelectCall) (idx : ℕ) : SelectClient :=
  let mask := (c.descr idx).localMask
  ((c.report call.readfdset mask .readable idx).report call.writefdset mask .writable idx).report
    call.excfdset mask .closed idx

/-- The loop of `ipaugenblick_select` over the list. -/
def walkCache (call : SelectCall) : SelectClient → ℕ → Option ℕ → SelectClient
  | c, 0, _ => c
  | c, _ + 1, none => c
  | c, n + 1, some idx => walkCache call (c.selectCached call idx) n (c.localReadyCache.next idx)

/-- `ret` of `ipaugenblick_select`. -/
def selectRet (call : SelectCall) : ℕ :=
  c.returnedIdx call.readfdset + c.returnedIdx call.writefdset + c.returnedIdx call.excfdset

/-- What `ipaugenblick_select` does with an entry of the ready ring; `none` is `exit`. -/
def selectEntry (call : SelectCall) (e : BitVec 32) : Option SelectClient :=
  let sock := readySocket e
  let mask := e >>> 16
  if connectionPoolSize ≤ sock then none
  else if (c.descr sock).select = -1 then some c
  else
    let d := c.descr sock
    let c := (c.setDescr sock { d with localMask := d.localMask ||| mask }).putToLocalCache sock
    let c := c.report call.readfdset mask .readable sock
    if hasBit mask .closed ∧ call.excfdset.isSome then
      some (c.report call.excfdset mask .closed sock)
    else some (c.report call.writefdset mask .writable sock)

/-- The loop of `ipaugenblick_select` over the entries that it dequeued. -/
def selectEntries (call : SelectCall) : SelectClient → List (BitVec 32) → Option SelectClient
  | c, [] => some c
  | c, e :: entries => (c.selectEntry call e).bind fun c => selectEntries call c entries

def setReady (selector : ℤ) (entries : List (BitVec 32)) : SelectClient :=
  { c with readyConnections := Function.update c.readyConnections selector entries }

end SelectClient

/-- How a call of `ipaugenblick_select` ends: it returns, with what it dequeued; it
calls `exit`; or it still waits when the rounds are over. -/
inductive SelectOutcome
  | returned (ret : ℤ) (client : SelectClient) (dequeued : List (BitVec 32))
  | exited
  | waiting

/-- What a call returns, if it does. -/
def SelectOutcome.ret : SelectOutcome → Option ℤ
  | .returned ret _ _ => some ret
  | .exited | .waiting => none

theorem SelectOutcome.of_ret {o : SelectOutcome} {ret : ℤ} (h : o.ret = some ret) :
    ∃ c dequeued, o = .returned ret c dequeued := by
  cases o with
  | returned r c dequeued =>
      obtain rfl : r = ret := Option.some.inj h
      exact ⟨c, dequeued, rfl⟩
  | exited => cases h
  | waiting => cases h

namespace SelectClient

/-- The loop of `ipaugenblick_select` at `restart_waiting`. -/
def restartWaiting (call : SelectCall) (c : SelectClient) (exitAfterCheck : Bool)
    (dequeued : List (BitVec 32)) (rounds : List SelectRound) : SelectOutcome :=
  if c.selectRet call ≠ 0 then .returned (c.selectRet call) c dequeued
  else
    match rounds with
    | [] => .waiting
    | round :: rounds =>
        let ready := c.readyConnections call.selector ++ round.arrived
        if ready = [] ∨ round.contended then
          let c := c.setReady call.selector ready
          if exitAfterCheck ∨ call.timeout = .zero then .returned (-1) c dequeued
          else restartWaiting call c (call.timeout ≠ .null) dequeued rounds
        else
          match (c.setReady call.selector []).selectEntries call ready with
          | none => .exited
          | some c => restartWaiting call c exitAfterCheck (dequeued ++ ready) rounds

/-- `ipaugenblick_select`.  The limit of the loop over the list is counted down as a
32-bit word until it is zero. -/
def select (c : SelectClient) (call : SelectCall) : SelectOutcome :=
  let iterationsLimit := (c.queueLength call.selector % 4294967296).toNat
  let first := c.localReadyCache.first call.selector
  restartWaiting call (walkCache call (c.clearReturned call) iterationsLimit first) false []
    call.rounds

end SelectClient

namespace SelectClient

variable {call : SelectCall} {P : SelectClient → List (BitVec 32) → Prop}
  {c c' : SelectClient} {dequeued : List (BitVec 32)}

theorem walkCache_induct {P : SelectClient → Prop}
    (hcached : ∀ c idx, P c → P (c.selectCached call idx)) :
    ∀ (n : ℕ) (c : SelectClient) (at' : Option ℕ), P c → P (walkCache call c n at') := by
  intro n
  induction n with
  | zero => exact fun c _ h => h
  | succ n ih =>
      intro c at' h
      cases at' with
      | none => exact h
      | some idx => exact ih _ _ (hcached c idx h)

theorem selectEntries_induct
    (hentry : ∀ c before e c', P c before → c.selectEntry call e = some c' →
      P c' (before ++ [e])) :
    ∀ (entries : List (BitVec 32)) (c : SelectClient) (before : List (BitVec 32)), P c before →
      selectEntries call c entries = some c' → P c' (before ++ entries) := by
  intro entries
  induction entries with
  | nil =>
      intro c before h hrun
      obtain rfl : c = c' := Option.some.inj hrun
      rwa [List.append_nil]
  | cons e entries ih =>
      intro c before h hrun
      obtain ⟨d, hfirst, hrest⟩ := Option.bind_eq_some_iff.mp hrun
      have := ih d (before ++ [e]) (hentry c before e d h hfirst) hrest
      rwa [List.append_assoc, List.singleton_append] at this

/-- What survives the bookkeeping of the ring and every entry survives the waiting; what
is returned is the count of the results, or -1. -/
theorem restartWaiting_induct
    (hready : ∀ c before s entries, P c before → P (c.setReady s entries) before)
    (hentry : ∀ c before e c', P c before → c.selectEntry call e = some c' →
      P c' (before ++ [e])) {ret : ℤ} :
    ∀ (rounds : List SelectRound) (c : SelectClient) (exitAfterCheck : Bool)
      (before : List (BitVec 32)), P c before →
      restartWaiting call c exitAfterCheck before rounds = .returned ret c' dequeued →
      P c' dequeued ∧ (ret = -1 ∨ ret = c'.selectRet call) := by
  intro rounds
  induction rounds with
  | nil =>
      intro c exitAfterCheck before h hrun
      unfold restartWaiting at hrun
      split at hrun
      · cases hrun
        exact ⟨h, .inr rfl⟩
      · cases hrun
  | cons round rounds ih =>
      intro c exitAfterCheck before h hrun
      unfold restartWaiting at hrun
      dsimp only at hrun
      split at hrun
      · cases hrun
        exact ⟨h, .inr rfl⟩
      · split at hrun
        · split at hrun
          · cases hrun
            exact ⟨hready _ _ _ _ h, .inl rfl⟩
          · exact ih _ _ _ (hready _ _ _ _ h) hrun
        · split at hrun
          · cases hrun
          · rename_i d hentries
            exact ih _ _ _ (selectEntries_induct hentry _ _ _ (hready _ _ _ _ h) hentries) hrun

/-- Reporting changes nothing but fdsets. -/
theorem modifyFdset_eq (c : SelectClient) (address : Option ℕ) (change : Fdset → Fdset) :
    ∃ fdsets, c.modifyFdset address change = { c with fdsets := fdsets } := by
  cases address with
  | none => exact ⟨c.fdsets, rfl⟩
  | some a => exact ⟨_, rfl⟩

theorem report_eq (c : SelectClient) (address : Option ℕ) (mask : BitVec 32) (bit : ReadyBit)
    (idx : ℕ) : ∃ fdsets, c.report address mask bit idx = { c with fdsets := fdsets } := by
  unfold report
  split
  · exact modifyFdset_eq c address _
  · exact ⟨c.fdsets, rfl⟩

theorem clearReturned_eq (c : SelectClient) (call : SelectCall) :
    ∃ fdsets, c.clearReturned call = { c with fdsets := fdsets } := by
  unfold clearReturned
  obtain ⟨f, hread⟩ := c.modifyFdset_eq call.readfdset .clearReturned
  obtain ⟨g, hwrite⟩ := ({ c with fdsets := f }).modifyFdset_eq call.writefdset .clearReturned
  obtain ⟨h, hexc⟩ := ({ c with fdsets := g }).modifyFdset_eq call.excfdset .clearReturned
  exact ⟨h, by rw [hread, hwrite, hexc]⟩

theorem selectCached_eq (c : SelectClient) (call : SelectCall) (idx : ℕ) :
    ∃ fdsets, c.selectCached call idx = { c with fdsets := fdsets } := by
  unfold selectCached
  dsimp only
  generalize (c.descr idx).localMask = mask
  obtain ⟨f, hread⟩ := c.report_eq call.readfdset mask .readable idx
  obtain ⟨g, hwrite⟩ := ({ c with fdsets := f }).report_eq call.writefdset mask .writable idx
  obtain ⟨h, hexc⟩ := ({ c with fdsets := g }).report_eq call.excfdset mask .closed idx
  exact ⟨h, by rw [hread, hwrite, hexc]⟩

/-- **Invariant rule of a select**, with the entries it has dequeued. -/
theorem select_induct (hclear : P (c.clearReturned call) [])
    (hcached : ∀ c idx, P c [] → P (c.selectCached call idx) [])
    (hready : ∀ c before s entries, P c before → P (c.setReady s entries) before)
    (hentry : ∀ c before e c', P c before → c.selectEntry call e = some c' →
      P c' (before ++ [e])) {ret : ℤ}
    (hrun : c.select call = .returned ret c' dequeued) :
    P c' dequeued ∧ (ret = -1 ∨ ret = c'.selectRet call) :=
  restartWaiting_induct hready hentry _ _ _ _ (walkCache_induct hcached _ _ _ hclear) hrun

end SelectClient

/-! ## The calls -/

/-- A call of the library, or an entry that comes to a ready ring. -/
inductive SelectStep
  | post (selector : ℤ) (e : BitVec 32)
  | /-- `ipaugenblick_open_socket` gets the connection `sock`. -/
    openSocket (sock : ℕ) (parent : ℤ)
  | /-- `ipaugenblick_accept` gets the connection `sock` for the accepted socket. -/
    accept (sock : ℕ)
  | setSocketSelect (sock : ℕ) (select : ℤ)
  | setSelectorMode (select : ℤ) (mode : Bool)
  | fdzero (fdset : ℕ)
  | fdset (sock fdset : ℕ)
  | fdclear (sock fdset : ℕ)
  | select (call : SelectCall)
  | /-- One of the four sends fails. -/
    sendFailed (sock : ℕ)
  | /-- `ipaugenblick_receive`, `ipaugenblick_receivefrom` or `ipaugenblick_accept`
    returns -1. -/
    receiveFailed (sock : ℕ)
  | shutdown (sock : ℕ)
  | close (sock : ℕ)
  deriving DecidableEq, Repr

def IsSelector (z : ℤ) : Prop := 0 ≤ z ∧ z < selectorPoolSize

instance (z : ℤ) : Decidable (IsSelector z) := inferInstanceAs (Decidable (_ ∧ _))

instance (z : ℤ) : Decidable (SelectorOk z) := inferInstanceAs (Decidable (_ ∨ _))

namespace SelectClient

variable (c : SelectClient)

/-- The fdset has been initialised, or there is none. -/
def isZeroed : Option ℕ → Bool
  | none => true
  | some a => (c.fdsets a).isSome

/-- What a caller keeps to: descriptors of sockets and selectors are such, and an fdset
is initialised before it is used. -/
def allowed : SelectStep → Bool
  | .post selector _ => decide (IsSelector selector)
  | .openSocket sock parent => decide (sock < connectionPoolSize ∧ SelectorOk parent)
  | .accept sock | .sendFailed sock | .receiveFailed sock | .shutdown sock | .close sock =>
      decide (sock < connectionPoolSize)
  | .setSocketSelect sock select => decide (sock < connectionPoolSize ∧ SelectorOk select)
  | .setSelectorMode select _ => decide (0 ≤ select)
  | .fdzero _ => true
  | .fdset sock f | .fdclear sock f => decide (sock < connectionPoolSize) && c.isZeroed (some f)
  | .select call =>
      decide (IsSelector call.selector) && c.isZeroed call.readfdset &&
        c.isZeroed call.writefdset && c.isZeroed call.excfdset

/-- The caller may make the call.  After a store through a stray pointer nothing more is
said of the process. -/
def enabled (a : SelectStep) : Prop := c.wild = false ∧ c.allowed a = true

instance (a : SelectStep) : Decidable (c.enabled a) := inferInstanceAs (Decidable (_ ∧ _))

/-- What a call does; `none` when it does not return. -/
def perform : SelectStep → Option SelectClient
  | .post selector e => some (c.setReady selector (c.readyConnections selector ++ [e]))
  | .openSocket sock parent => some ((c.resetLocalDescriptor sock).setSelect sock parent)
  | .accept sock => some (c.resetLocalDescriptor sock)
  | .setSocketSelect sock select => some (c.setSelect sock select)
  | .setSelectorMode select mode =>
      some (if selectorPoolSize ≤ select then c
        else { c with levelMode := Function.update c.levelMode select mode })
  | .fdzero f => some { c with fdsets := Function.update c.fdsets f (some .fdzero) }
  | .fdset sock f => some ((c.modifyFdset (some f) fun set => set.fdset sock).putToLocalCache sock)
  | .fdclear sock f =>
      some ((c.modifyFdset (some f) fun set => set.fdclear sock).removeSocketFromCache sock)
  | .select call =>
      match c.select call with
      | .returned _ c' _ => some c'
      | .exited | .waiting => none
  | .sendFailed sock => some (c.updateLocalReadyCache sock .writable)
  | .receiveFailed sock => some (c.updateLocalReadyCache sock .readable)
  | .shutdown sock => some (c.removeSocketFromCache sock)
  | .close sock => some ((c.removeSocketFromCache sock).setSelect sock (-1))

theorem putToLocalCache_fdsets (sock : ℕ) : (c.putToLocalCache sock).fdsets = c.fdsets := by
  unfold putToLocalCache
  dsimp only
  split_ifs <;> rfl

theorem removeSocketFromCache_fdsets (sock : ℕ) :
    (c.removeSocketFromCache sock).fdsets = c.fdsets := by
  unfold removeSocketFromCache
  dsimp only
  split_ifs
  · cases c.localReadyCache.remove (c.descr sock).select sock with
    | none => rfl
    | some cache => rfl
  · rfl
  · rfl

theorem updateLocalReadyCache_fdsets (sock : ℕ) (bit : ReadyBit) :
    (c.updateLocalReadyCache sock bit).fdsets = c.fdsets := by
  unfold updateLocalReadyCache
  dsimp only
  split_ifs
  · rfl
  · rfl
  · exact removeSocketFromCache_fdsets _ sock

end SelectClient

/-- The library after `ipaugenblick_app_init`; `stray` is what stands where
`selectors[-1]` would have its mode. -/
def selectMachine (stray : Bool) : Machine SelectClient SelectStep where
  init :=
    { descr := fun _ => ⟨-1, 0, false⟩
      levelMode := Function.update (fun _ => false) (-1) stray
      queueLength := fun _ => 0
      localReadyCache := .init
      readyConnections := fun _ => []
      fdsets := fun _ => none
      wild := false }
  step c a := if c.enabled a then c.perform a else none

theorem selectMachine_step {stray : Bool} {c c' : SelectClient} {a : SelectStep} :
    (selectMachine stray).step c a = some c' ↔ c.enabled a ∧ c.perform a = some c' :=
  Option.ite_none_right_eq_some

end IpAugenblick
