/-
# No lost wake-up

The service enqueues on `rx_ring` and then marks the connection readable: it
tests and sets `read_ready_to_app` and posts to the selector's ready ring if the
flag was clear.  The client clears the flag and then looks at the ring.  Whoever
comes second sees what the other did: after a receive that found nothing, data in
the ring means a READABLE entry was posted, or is about to be.
-/

import IpAugenblick.Lib.Machine
import IpAugenblick.Rx.Slot

namespace IpAugenblick

open Lib

/-- Usable slots of a selector's ring of ready connections. -/
def readyCapacity : ℕ := 1023

inductive ReadyBit
  | readable
  | writable
  | closed
  deriving DecidableEq, Repr

/-- An entry of the ready ring: the connection and what it is ready for. -/
structure ReadyEntry where
  connectionIdx : ℕ
  bit : ReadyBit
  deriving DecidableEq, Repr

/-- Where the service is inside `ipaugenblick_mark_readable`. -/
inductive MarkPc
  | /-- Between two calls. -/
    idle
  | /-- Before `read_ready_to_app` is tested and set. -/
    testAndSet
  | /-- The flag was clear; before the entry is posted. -/
    post
  deriving DecidableEq, Repr

inductive WakePc (α : Type)
  | /-- Between two calls. -/
    idle
  | /-- Inside `ipaugenblick_receive` or `ipaugenblick_receivefrom`; `shadowed` when
    the rest of an earlier chain is in hand already. -/
    dequeue (shadowed : Bool) (pc : DequeuePc α)
  | /-- A half-delivered chain was left; before the client posts for itself. -/
    post
  | /-- Inside `ipaugenblick_accept`, the flag cleared. -/
    accept
  | /-- Inside `ipaugenblick_select`, the ready ring counted. -/
    select (readyCount : ℕ)

/-- One connection, its selector's ready ring, the service and the client. -/
structure WakeState (α : Type) where
  slot : Slot α
  ready : Ring ReadyEntry readyCapacity
  service : MarkPc
  client : WakePc α
  /-- A half-delivered chain is in the descriptor. -/
  shadow : Bool
  /-- The last receive, receivefrom or accept returned -1. -/
  lastFailed : Bool
  /-- Since that -1 a select took a READABLE entry of this connection. -/
  seen : Bool

/-- One atomic access of the service or the client. -/
inductive WakeStep (α : Type)
  | /-- `ipaugenblick_submit_rx_buf`: the enqueue. -/
    submitRxBuf (x : α)
  | /-- `ipaugenblick_post_accepted`: the enqueue. -/
    postAccepted (x : α)
  | /-- `ipaugenblick_mark_readable` on its own. -/
    markReadable
  | /-- The next access of `ipaugenblick_mark_readable`. -/
    service
  | /-- Somebody posts another entry to the selector. -/
    otherReady (e : ReadyEntry)
  | /-- A receive that the half-delivered chain satisfies; `leaves` when some of it stays. -/
    receiveShadow (leaves : Bool)
  | /-- A receive or receivefrom that needs the ring. -/
    receive
  | /-- The next access of the receive under way. -/
    advance
  | /-- The receive under way returns; `leaves` when it leaves a half-delivered chain. -/
    receiveReturn (leaves : Bool)
  | /-- The client posts for the half-delivered chain it left. -/
    postShadow
  | /-- `ipaugenblick_accept`: the flag is cleared. -/
    accept
  | /-- `ipaugenblick_accept`: the dequeue, and the return. -/
    acceptReturn
  | /-- `ipaugenblick_select`: the ready ring is counted. -/
    select
  | /-- `ipaugenblick_select`: the counted entries are taken. -/
    selectTake

section Machine

variable {α : Type} (conn : ℕ)

/-- The entry that wakes the client of the connection. -/
def readableEntry : ReadyEntry := ⟨conn, .readable⟩

/-- `ipaugenblick_mark_readable`, access by access.  The connection is bound to a
selector, whose ring is never full. -/
def WakeState.mark (s : WakeState α) : Option (WakeState α) :=
  match s.service with
  | .idle => none
  | .testAndSet =>
      if s.slot.readReadyToApp then some { s with service := .idle }
      else some { s with slot := { s.slot with readReadyToApp := true }, service := .post }
  | .post =>
      if 0 < s.ready.freeCount then
        some { s with
          ready := (s.ready.enqueueBulk (readyCapacity + 1) [readableEntry conn]).2
          service := .idle }
      else none

/-- A call that handed something out returns; a half-delivered chain is posted. -/
def WakeState.succeed (s : WakeState α) (leaves : Bool) : WakeState α :=
  { s with
    lastFailed := false
    shadow := leaves
    client := if leaves then .post else .idle }

/-- A call returns -1. -/
def WakeState.fail (s : WakeState α) : WakeState α :=
  { s with lastFailed := true, seen := false, client := .idle }

/-- The service and the client of one connection.  A step is one access to the flag, the receive
ring or the ready ring: a wake-up can only get lost between two of them. -/
def wakeMachine (ring : Ring α dataRingCapacity) (ready : Ring ReadyEntry readyCapacity) :
    Machine (WakeState α) (WakeStep α) where
  init :=
    { slot := { ring, cache := .empty, readReadyToApp := false }
      ready, service := .idle, client := .idle, shadow := false
      lastFailed := false, seen := false }
  step s
    | .submitRxBuf x =>
        if s.service = .idle then
          match s.slot.ring.enqueueBulk 1 [x] with
          | (.success, ring) => some { s with slot := { s.slot with ring } }
          | (_, ring) => some { s with slot := { s.slot with ring }, service := .testAndSet }
        else none
    | .postAccepted x =>
        if s.service = .idle then
          match s.slot.ring.enqueueBulk 1 [x] with
          | (.nobufs, _) => some s
          | (_, ring) => some { s with slot := { s.slot with ring }, service := .testAndSet }
        else none
    | .markReadable =>
        if s.service = .idle then some { s with service := .testAndSet } else none
    | .service => s.mark conn
    | .otherReady e =>
        if e ≠ readableEntry conn ∧ 0 < s.ready.freeCount then
          some { s with ready := (s.ready.enqueueBulk (readyCapacity + 1) [e]).2 }
        else none
    | .receiveShadow leaves =>
        match s.client with
        | .idle => if s.shadow then some (s.succeed leaves) else none
        | _ => none
    | .receive =>
        match s.client with
        | .idle => some { s with shadow := false, client := .dequeue s.shadow .start }
        | _ => none
    | .advance =>
        match s.client with
        | .dequeue _ (.kick _) => none
        | .dequeue shadowed pc =>
            let next := s.slot.dequeueStep pc
            some { s with slot := next.1, client := .dequeue shadowed next.2 }
        | _ => none
    | .receiveReturn leaves =>
        match s.client with
        | .dequeue false (.kick none) => some s.fail
        | .dequeue _ (.kick _) => some (s.succeed leaves)
        | _ => none
    | .postShadow =>
        match s.client with
        | .post =>
            if 0 < s.ready.freeCount then
              some { s with
                ready := (s.ready.enqueueBulk (readyCapacity + 1) [readableEntry conn]).2
                client := .idle }
            else none
        | _ => none
    | .accept =>
        match s.client with
        | .idle => some { s with
            slot := { s.slot with readReadyToApp := false }
            client := .accept }
        | _ => none
    | .acceptReturn =>
        match s.client with
        | .accept =>
            match s.slot.ring.dequeue with
            | none => some s.fail
            | some (_, ring) =>
                some { s with
                  slot := { s.slot with ring }
                  lastFailed := false
                  client := .idle }
        | _ => none
    | .select =>
        match s.client with
        | .idle => some { s with client := .select s.ready.count }
        | _ => none
    | .selectTake =>
        match s.client with
        | .select readyCount =>
            if s.ready.count < readyCount then some { s with client := .idle }
            else
              let taken := s.ready.dequeueBurst readyCount
              some { s with
                ready := taken.2
                seen := s.seen || decide (readableEntry conn ∈ taken.1)
                client := .idle }
        | _ => none

/-! ## The invariant -/

/-- A wake-up is posted, about to be posted, or not needed. -/
def Woken (s : WakeState α) : Prop :=
  readableEntry conn ∈ s.ready.items ∨ s.service = .post ∨
    s.slot.readReadyToApp = false ∧ (s.slot.ring.items = [] ∨ s.service = .testAndSet)

/-- Since the client cleared the flag, nothing was marked without being posted. -/
def Cleared (s : WakeState α) : Prop :=
  readableEntry conn ∈ s.ready.items ∨ s.service = .post ∨ s.slot.readReadyToApp = false

/-- What the client may rely on at each point of a call that has found nothing yet. -/
def PcOk (s : WakeState α) : Prop :=
  match s.client with
  | .dequeue _ (.clear none) => s.slot.cache.items = []
  | .dequeue _ (.count none) => s.slot.cache.items = [] ∧ Cleared conn s
  | .dequeue _ (.burst none) => s.slot.cache.items = [] ∧ s.slot.ring.items ≠ []
  | .dequeue _ (.again none) => s.slot.cache.items ≠ [] ∨ Woken conn s
  | .dequeue _ (.kick none) => Woken conn s
  | .accept => Cleared conn s
  | _ => True

/-- After a failed call the client has been, or will be, woken for what is in the ring. -/
structure WakeInv (s : WakeState α) : Prop where
  failed : s.lastFailed = true → Woken conn s ∨ s.seen = true
  pc : PcOk conn s

/-- What a step of the service leaves to the client. -/
structure ServiceKeeps (s t : WakeState α) : Prop where
  client : t.client = s.client
  lastFailed : t.lastFailed = s.lastFailed
  seen : t.seen = s.seen
  cache : t.slot.cache = s.slot.cache
  ring : s.slot.ring.items ≠ [] → t.slot.ring.items ≠ []
  woken : Woken conn s → Woken conn t
  cleared : Cleared conn s → Cleared conn t

variable {conn}

theorem Woken.cleared {s : WakeState α} (h : Woken conn s) : Cleared conn s := by
  rcases h with hready | hpost | ⟨hflag, -⟩
  · exact .inl hready
  · exact .inr (.inl hpost)
  · exact .inr (.inr hflag)

/-- With the ring empty, a cleared flag is all it takes. -/
theorem Cleared.woken {s : WakeState α} (h : Cleared conn s) (hring : s.slot.ring.items = []) :
    Woken conn s := by
  rcases h with hready | hpost | hflag
  · exact .inl hready
  · exact .inr (.inl hpost)
  · exact .inr (.inr ⟨hflag, .inl hring⟩)

/-! ## Steps of the service -/

theorem WakeInv.of_service {s t : WakeState α} (h : WakeInv conn s)
    (hkeeps : ServiceKeeps conn s t) : WakeInv conn t where
  failed := by
    rw [hkeeps.lastFailed, hkeeps.seen]
    intro hfailed
    exact (h.failed hfailed).imp_left hkeeps.woken
  pc := by
    have hpc := h.pc
    unfold PcOk at hpc ⊢
    rw [hkeeps.client, hkeeps.cache]
    split at hpc
    next => exact hpc
    next => exact ⟨hpc.1, hkeeps.cleared hpc.2⟩
    next => exact ⟨hpc.1, hkeeps.ring hpc.2⟩
    next => exact hpc.imp_right hkeeps.woken
    next => exact hkeeps.woken hpc
    next => exact hkeeps.cleared hpc
    next => trivial

/-- An enqueue that is followed by a mark. -/
theorem serviceKeeps_enqueue {s : WakeState α} (hidle : s.service = .idle)
    {ring : Ring α dataRingCapacity} (hring : s.slot.ring.items ≠ [] → ring.items ≠ []) :
    ServiceKeeps conn s
      { s with slot := { s.slot with ring }, service := .testAndSet } where
  client := rfl
  lastFailed := rfl
  seen := rfl
  cache := rfl
  ring := hring
  woken := by
    rintro (hready | hpost | ⟨hflag, -⟩)
    · exact .inl hready
    · rw [hidle] at hpost
      cases hpost
    · exact .inr (.inr ⟨hflag, .inr rfl⟩)
  cleared := by
    rintro (hready | hpost | hflag)
    · exact .inl hready
    · rw [hidle] at hpost
      cases hpost
    · exact .inr (.inr hflag)

theorem serviceKeeps_mark {s t : WakeState α} (hstep : s.mark conn = some t) :
    ServiceKeeps conn s t := by
  unfold WakeState.mark at hstep
  split at hstep
  next => cases hstep
  next hservice =>
      split at hstep
      next hflag =>
          obtain rfl := Option.some.inj hstep
          refine ⟨rfl, rfl, rfl, rfl, fun h => h, ?_, ?_⟩
          · rintro (hready | hpost | ⟨hclear, -⟩)
            · exact .inl hready
            · rw [hservice] at hpost
              cases hpost
            · rw [hflag] at hclear
              cases hclear
          · rintro (hready | hpost | hclear)
            · exact .inl hready
            · rw [hservice] at hpost
              cases hpost
            · rw [hflag] at hclear
              cases hclear
      next =>
          obtain rfl := Option.some.inj hstep
          exact ⟨rfl, rfl, rfl, rfl, fun h => h, fun _ => .inr (.inl rfl), fun _ => .inr (.inl rfl)⟩
  next =>
      split at hstep
      next hroom =>
          obtain rfl := Option.some.inj hstep
          exact ⟨rfl, rfl, rfl, rfl, fun h => h, fun _ => .inl (Ring.mem_enqueueBulk_self hroom),
            fun _ => .inl (Ring.mem_enqueueBulk_self hroom)⟩
      next => cases hstep

theorem serviceKeeps_otherReady (s : WakeState α) (e : ReadyEntry) :
    ServiceKeeps conn s
      { s with ready := (s.ready.enqueueBulk (readyCapacity + 1) [e]).2 } where
  client := rfl
  lastFailed := rfl
  seen := rfl
  cache := rfl
  ring := fun h => h
  woken := fun h => h.imp_left Ring.mem_enqueueBulk
  cleared := fun h => h.imp_left Ring.mem_enqueueBulk

/-! ## Steps of the client -/

/-- A burst from a ring that is not empty puts something into an empty cache. -/
theorem burst_ne_nil {ring : Ring α dataRingCapacity} {cache : Ring α localCacheCapacity}
    (hcache : cache.items = []) (hring : ring.items ≠ []) :
    (cache.enqueueBurst (ring.dequeueBurst
      (if maxPktBurst < cache.freeCount then maxPktBurst else cache.freeCount)).1).items ≠ [] := by
  have hfree : cache.freeCount = localCacheCapacity := by
    rw [Ring.freeCount, hcache, List.length_nil, Nat.sub_zero]
  have hburst : (if maxPktBurst < cache.freeCount then maxPktBurst else cache.freeCount) = 32 := by
    rw [hfree]
    rfl
  have hfit : (ring.dequeueBurst 32).1.length ≤ cache.freeCount := by
    rw [Ring.dequeueBurst_fst, List.length_take, hfree]
    exact Nat.le_trans (Nat.min_le_left _ _) (by decide)
  rw [hburst, Ring.items_enqueueBurst _ hfit, hcache, Ring.dequeueBurst_fst, List.nil_append]
  simpa using hring

/-- The client touches nothing of a failed call's wake-up. -/
theorem WakeInv.of_client {s t : WakeState α} (h : WakeInv conn s) (hpc : PcOk conn t)
    (hfailed : t.lastFailed = s.lastFailed) (hseen : t.seen = s.seen)
    (hwoken : Woken conn s → Woken conn t) : WakeInv conn t where
  failed := by
    rw [hfailed, hseen]
    intro hlast
    exact (h.failed hlast).imp_left hwoken
  pc := hpc

theorem WakeInv.succeed {s : WakeState α} (leaves : Bool) : WakeInv conn (s.succeed leaves) where
  failed := (nomatch ·)
  pc := by
    unfold PcOk WakeState.succeed
    cases leaves <;> trivial

theorem WakeInv.fail {s : WakeState α} (h : Woken conn s) : WakeInv conn s.fail where
  failed := fun _ => .inl h
  pc := trivial

/-- **One access of a dequeue.**  It keeps the wake-up of an earlier failure and
establishes the one of its own. -/
theorem WakeInv.dequeueStep {s t : WakeState α} {shadowed : Bool} {pc : DequeuePc α}
    (h : WakeInv conn s) (hclient : s.client = .dequeue shadowed pc)
    (ht : t = { s with
      slot := (s.slot.dequeueStep pc).1
      client := .dequeue shadowed (s.slot.dequeueStep pc).2 }) : WakeInv conn t := by
  have hpc := h.pc
  unfold PcOk at hpc
  rw [hclient] at hpc
  cases pc with
  | start =>
      simp only [Slot.dequeueStep] at ht
      cases hcache : s.slot.cache.dequeue with
      | none =>
          rw [hcache] at ht
          subst ht
          exact h.of_client ((Ring.dequeue_eq_none_iff _).mp hcache) rfl rfl fun hwoken => hwoken
      | some pair =>
          rw [hcache] at ht
          subst ht
          exact h.of_client trivial rfl rfl fun hwoken => hwoken
  | clear mbuf =>
      simp only [Slot.dequeueStep] at ht
      subst ht
      refine h.of_client ?_ rfl rfl ?_
      · cases mbuf with
        | none => exact ⟨hpc, .inr (.inr rfl)⟩
        | some mbuf => trivial
      · rintro (hready | hpost | ⟨-, hring⟩)
        · exact .inl hready
        · exact .inr (.inl hpost)
        · exact .inr (.inr ⟨rfl, hring⟩)
  | count mbuf =>
      simp only [Slot.dequeueStep] at ht
      by_cases hcount : 0 < s.slot.ring.count
      · rw [if_pos hcount] at ht
        subst ht
        refine h.of_client ?_ rfl rfl fun hwoken => hwoken
        cases mbuf with
        | none => exact ⟨hpc.1, List.ne_nil_of_length_pos hcount⟩
        | some mbuf => trivial
      · rw [if_neg hcount] at ht
        subst ht
        refine h.of_client ?_ rfl rfl fun hwoken => hwoken
        cases mbuf with
        | none =>
            have hempty : s.slot.ring.items = [] :=
              List.length_eq_zero_iff.mp (Nat.eq_zero_of_not_pos hcount)
            exact .inr (hpc.2.woken hempty)
        | some mbuf => trivial
  | burst mbuf =>
      simp only [Slot.dequeueStep] at ht
      subst ht
      refine h.of_client ?_ rfl rfl ?_
      · cases mbuf with
        | none =>
            obtain ⟨hcache, hring⟩ := hpc
            left
            exact burst_ne_nil hcache hring
        | some mbuf => trivial
      · rintro (hready | hpost | ⟨hflag, hring | hmark⟩)
        · exact .inl hready
        · exact .inr (.inl hpost)
        · refine .inr (.inr ⟨hflag, .inl ?_⟩)
          show (s.slot.ring.dequeueBurst _).2.items = []
          rw [Ring.items_dequeueBurst, hring, List.drop_nil]
        · exact .inr (.inr ⟨hflag, .inr hmark⟩)
  | again mbuf =>
      cases mbuf with
      | some mbuf =>
          simp only [Slot.dequeueStep] at ht
          subst ht
          exact h.of_client trivial rfl rfl fun hwoken => hwoken
      | none =>
          simp only [Slot.dequeueStep] at ht
          cases hcache : s.slot.cache.dequeue with
          | none =>
              rw [hcache] at ht
              subst ht
              refine h.of_client ?_ rfl rfl fun hwoken => hwoken
              exact hpc.resolve_left fun hne => hne ((Ring.dequeue_eq_none_iff _).mp hcache)
          | some pair =>
              rw [hcache] at ht
              subst ht
              exact h.of_client trivial rfl rfl fun hwoken => hwoken
  | kick mbuf =>
      simp only [Slot.dequeueStep] at ht
      subst ht
      refine h.of_client ?_ rfl rfl fun hwoken => hwoken
      exact hpc

/-! ## Every run -/

variable {ring : Ring α dataRingCapacity} {ready : Ring ReadyEntry readyCapacity}

theorem wakeInv_submitRxBuf {s t : WakeState α} {x : α} (h : WakeInv conn s)
    (hstep : (wakeMachine conn ring ready).step s (.submitRxBuf x) = some t) :
    WakeInv conn t := by
  simp only [wakeMachine] at hstep
  split at hstep
  next hidle =>
      have hring : s.slot.ring.items ≠ [] → (s.slot.ring.enqueueBulk 1 [x]).2.items ≠ [] :=
        Ring.enqueueBulk_ne_nil
      have hcode := s.slot.ring.enqueueBulk_one_ne_success [x] (by simp)
      obtain ⟨code, ring', hbulk⟩ : ∃ code ring', s.slot.ring.enqueueBulk 1 [x] = (code, ring') :=
        ⟨_, _, rfl⟩
      rw [hbulk] at hstep hring hcode
      cases code with
      | success => exact absurd rfl hcode
      | quota =>
          obtain rfl := Option.some.inj hstep
          exact h.of_service (serviceKeeps_enqueue hidle hring)
      | nobufs =>
          obtain rfl := Option.some.inj hstep
          exact h.of_service (serviceKeeps_enqueue hidle hring)
  next => cases hstep

theorem wakeInv_postAccepted {s t : WakeState α} {x : α} (h : WakeInv conn s)
    (hstep : (wakeMachine conn ring ready).step s (.postAccepted x) = some t) :
    WakeInv conn t := by
  simp only [wakeMachine] at hstep
  split at hstep
  next hidle =>
      have hring : s.slot.ring.items ≠ [] → (s.slot.ring.enqueueBulk 1 [x]).2.items ≠ [] :=
        Ring.enqueueBulk_ne_nil
      obtain ⟨code, ring', hbulk⟩ : ∃ code ring', s.slot.ring.enqueueBulk 1 [x] = (code, ring') :=
        ⟨_, _, rfl⟩
      rw [hbulk] at hstep hring
      cases code with
      | nobufs =>
          obtain rfl := Option.some.inj hstep
          exact h
      | success =>
          obtain rfl := Option.some.inj hstep
          exact h.of_service (serviceKeeps_enqueue hidle hring)
      | quota =>
          obtain rfl := Option.some.inj hstep
          exact h.of_service (serviceKeeps_enqueue hidle hring)
  next => cases hstep

theorem wakeInv_acceptReturn {s t : WakeState α} (h : WakeInv conn s)
    (hstep : (wakeMachine conn ring ready).step s .acceptReturn = some t) : WakeInv conn t := by
  simp only [wakeMachine] at hstep
  split at hstep
  next hclient =>
      have hcleared : Cleared conn s := by
        have hpc := h.pc
        unfold PcOk at hpc
        rw [hclient] at hpc
        exact hpc
      split at hstep
      next hempty =>
          obtain rfl := Option.some.inj hstep
          exact .fail (hcleared.woken ((Ring.dequeue_eq_none_iff _).mp hempty))
      next =>
          obtain rfl := Option.some.inj hstep
          exact { failed := (nomatch ·), pc := trivial }
  next => cases hstep

theorem wakeInv_selectTake {s t : WakeState α} (h : WakeInv conn s)
    (hstep : (wakeMachine conn ring ready).step s .selectTake = some t) : WakeInv conn t := by
  simp only [wakeMachine] at hstep
  split at hstep
  next readyCount hclient =>
      split at hstep
      next =>
          obtain rfl := Option.some.inj hstep
          exact h.of_client trivial rfl rfl fun hwoken => hwoken
      next =>
          obtain rfl := Option.some.inj hstep
          refine { failed := fun hfailed => ?_, pc := trivial }
          rcases h.failed hfailed with (hready | hpost | hring) | hseen
          · rcases Ring.mem_dequeueBurst readyCount hready with htaken | hleft
            · right
              simp only [htaken, decide_true, Bool.or_true]
            · exact .inl (.inl hleft)
          · exact .inl (.inr (.inl hpost))
          · exact .inl (.inr (.inr hring))
          · right
            simp [hseen]
  next => cases hstep

theorem wakeInv_receiveReturn {s t : WakeState α} {leaves : Bool} (h : WakeInv conn s)
    (hstep : (wakeMachine conn ring ready).step s (.receiveReturn leaves) = some t) :
    WakeInv conn t := by
  simp only [wakeMachine] at hstep
  split at hstep
  next hclient =>
      obtain rfl := Option.some.inj hstep
      have hpc := h.pc
      unfold PcOk at hpc
      rw [hclient] at hpc
      exact .fail hpc
  next =>
      obtain rfl := Option.some.inj hstep
      exact .succeed leaves
  next => cases hstep

theorem wakeInv_step {s t : WakeState α} {a : WakeStep α} (h : WakeInv conn s)
    (hstep : (wakeMachine conn ring ready).step s a = some t) : WakeInv conn t := by
  cases a with
  | submitRxBuf x => exact wakeInv_submitRxBuf h hstep
  | postAccepted x => exact wakeInv_postAccepted h hstep
  | markReadable =>
      simp only [wakeMachine] at hstep
      split at hstep
      next hidle =>
          obtain rfl := Option.some.inj hstep
          exact h.of_service (serviceKeeps_enqueue hidle fun hne => hne)
      next => cases hstep
  | service => exact h.of_service (serviceKeeps_mark hstep)
  | otherReady e =>
      simp only [wakeMachine] at hstep
      split at hstep
      next =>
          obtain rfl := Option.some.inj hstep
          exact h.of_service (serviceKeeps_otherReady s e)
      next => cases hstep
  | receiveShadow leaves =>
      simp only [wakeMachine] at hstep
      split at hstep
      next =>
          split at hstep
          next =>
              obtain rfl := Option.some.inj hstep
              exact .succeed leaves
          next => cases hstep
      next => cases hstep
  | receive =>
      simp only [wakeMachine] at hstep
      split at hstep
      next =>
          obtain rfl := Option.some.inj hstep
          exact h.of_client trivial rfl rfl fun hwoken => hwoken
      next => cases hstep
  | advance =>
      simp only [wakeMachine] at hstep
      split at hstep
      next => cases hstep
      next shadowed pc _ hclient =>
          exact h.dequeueStep hclient (Option.some.inj hstep).symm
      next => cases hstep
  | receiveReturn leaves => exact wakeInv_receiveReturn h hstep
  | postShadow =>
      simp only [wakeMachine] at hstep
      split at hstep
      next =>
          split at hstep
          next =>
              obtain rfl := Option.some.inj hstep
              exact h.of_client trivial rfl rfl fun hwoken => hwoken.imp_left Ring.mem_enqueueBulk
          next => cases hstep
      next => cases hstep
  | accept =>
      simp only [wakeMachine] at hstep
      split at hstep
      next =>
          obtain rfl := Option.some.inj hstep
          refine h.of_client (.inr (.inr rfl)) rfl rfl ?_
          rintro (hready | hpost | ⟨-, hring⟩)
          · exact .inl hready
          · exact .inr (.inl hpost)
          · exact .inr (.inr ⟨rfl, hring⟩)
      next => cases hstep
  | acceptReturn => exact wakeInv_acceptReturn h hstep
  | select =>
      simp only [wakeMachine] at hstep
      split at hstep
      next =>
          obtain rfl := Option.some.inj hstep
          exact h.of_client trivial rfl rfl fun hwoken => hwoken
      next => cases hstep
  | selectTake => exact wakeInv_selectTake h hstep

/-- **No lost wake-up.**  Whenever the last receive or accept returned -1, the ring
holds something and the service is between two calls, a READABLE entry is in the
ready ring or was taken by a select since. -/
theorem no_lost_wakeup {s : WakeState α} (hreach : (wakeMachine conn ring ready).Reachable s)
    (hfailed : s.lastFailed = true) (hring : s.slot.ring.items ≠ [])
    (hidle : s.service = .idle) :
    readableEntry conn ∈ s.ready.items ∨ s.seen = true := by
  have hinv : WakeInv conn s := by
    refine (wakeMachine conn ring ready).invariant_of_step ?_ ?_ hreach
    · exact { failed := (nomatch ·), pc := trivial }
    · intro s a t h _ hstep
      exact wakeInv_step h hstep
  rcases hinv.failed hfailed with (hready | hpost | ⟨-, hempty | hmark⟩) | hseen
  · exact .inl hready
  · rw [hidle] at hpost
    cases hpost
  · exact absurd hempty hring
  · rw [hidle] at hmark
    cases hmark
  · exact .inr hseen

end Machine

/-- The service submits between the client's look at the ring and its return. -/
theorem no_lost_wakeup_submit_during_receive :
    ∃ s : WakeState ℕ, (wakeMachine 3 .empty .empty).Reachable s ∧ s.lastFailed = true ∧
      s.slot.ring.items = [7] ∧ s.service = .idle ∧
      (readableEntry 3 ∈ s.ready.items ∨ s.seen = true) := by
  have hrun : ((wakeMachine 3 (.empty : Ring ℕ dataRingCapacity) .empty).run
      [.receive, .advance, .advance, .advance, .submitRxBuf 7, .service, .advance,
        .receiveReturn false, .service]).map
      (fun s => (s.lastFailed, s.slot.ring.items, s.service)) = some (true, [7], .idle) := by
    decide +kernel
  obtain ⟨s, hs, hview⟩ := Option.map_eq_some_iff.mp hrun
  obtain ⟨hfailed, hrest⟩ := Prod.mk.inj hview
  obtain ⟨hring, hidle⟩ := Prod.mk.inj hrest
  have hreach := (wakeMachine 3 .empty .empty).reachable_of_run hs
  refine ⟨s, hreach, hfailed, hring, hidle, ?_⟩
  exact no_lost_wakeup hreach hfailed (by rw [hring]; decide) hidle

end IpAugenblick
