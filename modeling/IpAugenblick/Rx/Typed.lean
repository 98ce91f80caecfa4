/-
# Two kinds of objects in one ring

The `rx_ring` of a connection has chains of mbufs, and that of a listening connection has ACCEPTED
commands.  Nothing in the ring says which: a consumer goes by the call that it is in.
`ipaugenblick_receive` and the two flushes take chains, `ipaugenblick_accept` takes commands.

The flushes are also run on listening connections, whose commands they then free as chains; LISTEN
and SHUTDOWN change the kind of a connection whatever its ring has; and a connection that was
accepted without a command buffer sends its chains to the ring of the listener.  In the runs
without these every object is taken as what it is.

The slot is followed through its uses: it is taken from the free connections, bound by OPEN or
SET_SOCKET_RING and given back by CLOSE.
-/

import IpAugenblick.Lib.Machine
import IpAugenblick.Rx.Slot

namespace IpAugenblick

open Lib

/-- An element of an `rx_ring`. -/
inductive RxItem
  | mbuf (chain : ℕ)
  | /-- An ACCEPTED command with its socket. -/
    cmd (socket : ℕ)
  deriving DecidableEq, Repr

/-- What a consumer takes an element for, and so the pool that it goes back to. -/
inductive Treatment
  | asMbuf
  | asCommand
  deriving DecidableEq, Repr

/-- What the producer put there. -/
def RxItem.treatment : RxItem → Treatment
  | .mbuf _ => .asMbuf
  | .cmd _ => .asCommand

/-- The commands that matter to the ring of a slot. -/
inductive TypedCommand
  | openSocket
  | setSocketRing
  | listen
  | close
  | shutdown
  | rxKick
  | setSocketSelect
  deriving DecidableEq, Repr

def TypedCommand.binds : TypedCommand → Bool
  | .openSocket | .setSocketRing => true
  | _ => false

inductive TypedPc
  | idle
  | /-- In `ipaugenblick_dequeue_rx_buf`. -/
    receive (pc : DequeuePc RxItem)
  | /-- In the first loop of `ipaugenblick_flush_rx`. -/
    flushCache
  | /-- In the second. -/
    flushRing

structure TypedSlot where
  rxRing : Ring RxItem dataRingCapacity
  /-- `local_cache` of each client process. -/
  localCache : ℕ → Ring RxItem localCacheCapacity
  pc : ℕ → TypedPc
  /-- The slot is in `free_connections_ring`. -/
  free : Bool
  /-- The socket of the satelite, with whether it listens. -/
  bound : Option Bool
  /-- The connections that were accepted without a command and point to the satelite. -/
  orphans : ℕ
  commands : List TypedCommand
  running : Bool
  /-- The elements that were removed, with what they were taken for. -/
  consumed : List (RxItem × Treatment)

inductive TypedStep
  | /-- `ipaugenblick_open_socket` takes the slot. -/
    openSocket (gotCommand room : Bool)
  | /-- `ipaugenblick_accept` takes it for a connection of another listener. -/
    acceptInto (room : Bool)
  | /-- A call that only queues a command. -/
    enqueue (c : TypedCommand)
  | close (a : ℕ) (gotCommand room : Bool)
  | /-- `ipaugenblick_receive` or `ipaugenblick_receivefrom`. -/
    receive (a : ℕ)
  | /-- The next access of a receive or a close. -/
    advance (a : ℕ)
  | accept (a : ℕ)
  | /-- The service takes the next command; the call succeeds or not, the socket has `chains`. -/
    processCommand (ok : Bool) (chains : List ℕ)
  | /-- `user_data_available_cbk`, for the socket of the satelite or an orphan. -/
    dataAvailable (orphan : Bool) (chains : List ℕ)
  | /-- A round of `user_on_accept`. -/
    onAccept (socket : ℕ) (gotCommand : Bool)
  | /-- `user_on_socket_fatal`. -/
    socketFatal (orphan : Bool)
  deriving DecidableEq, Repr

namespace TypedSlot

variable (s : TypedSlot)

def stop : TypedSlot := { s with running := false }

def setPc (a : ℕ) (pc : TypedPc) : TypedSlot := { s with pc := Function.update s.pc a pc }

def setCache (a : ℕ) (cache : Ring RxItem localCacheCapacity) : TypedSlot :=
  { s with localCache := Function.update s.localCache a cache }

def consume (e : RxItem) (treatment : Treatment) : TypedSlot :=
  { s with consumed := (e, treatment) :: s.consumed }

/-- `ipaugenblick_enqueue_command_buf`. -/
def enqueue (room : Bool) (c : TypedCommand) : TypedSlot :=
  if room then { s with commands := s.commands ++ [c] } else s

/-- `ipaugenblick_submit_rx_buf`, for as many chains as there is room. -/
def submit (chains : List ℕ) : TypedSlot :=
  { s with rxRing := s.rxRing.enqueueBurst (chains.map .mbuf) }

/-- `user_data_available_cbk`, which exits for a listening socket. -/
def dataAvailable (listening : Bool) (chains : List ℕ) : TypedSlot :=
  if listening then s.stop else s.submit chains

def userFlushRx : TypedSlot :=
  { s with
    rxRing := .empty
    consumed := s.rxRing.items.map (fun e => (e, Treatment.asMbuf)) ++ s.consumed }

/-- The cases of `process_commands`. -/
def handle (ok : Bool) (chains : List ℕ) : TypedCommand → TypedSlot
  | .openSocket => if ok then { s with bound := some false } else s
  | .setSocketRing => submit { s with bound := some false } chains
  | .listen =>
      match s.bound with
      | none => s.stop
      | some _ => if ok then { s with bound := some true } else s
  | .close =>
      match s.bound with
      | none => s
      | some _ => { s.userFlushRx with bound := none, free := true }
  | .shutdown =>
      match s.bound with
      | some true => if ok then { s with bound := some false } else s
      | _ => s
  | .rxKick | .setSocketSelect =>
      match s.bound with
      | none => s
      | some listening => s.dataAvailable listening chains

/-- The next access of a client. -/
def advance (a : ℕ) : Option TypedSlot :=
  match s.pc a with
  | .idle => none
  | .receive (.kick none) => some (s.setPc a .idle)
  | .receive (.kick (some e)) => some ((s.consume e .asMbuf).setPc a .idle)
  | .receive pc =>
      let (slot, pc) := Slot.dequeueStep ⟨s.rxRing, s.localCache a, false⟩ pc
      some (({ s with rxRing := slot.ring }.setCache a slot.cache).setPc a (.receive pc))
  | .flushCache =>
      match (s.localCache a).dequeue with
      | none => some (s.setPc a .flushRing)
      | some (e, cache) => some ((s.setCache a cache).consume e .asMbuf)
  | .flushRing =>
      match s.rxRing.dequeue with
      | none => some (s.setPc a .idle)
      | some (e, ring) => some ({ s with rxRing := ring }.consume e .asMbuf)

def idle (a : ℕ) : Bool :=
  match s.pc a with
  | .idle => true
  | _ => false

end TypedSlot

/-- A slot, from the start of the service.  Its ring has chains for a connection and commands for
a listener, and an element does not say which it is. -/
def typedMachine : Machine TypedSlot TypedStep where
  init :=
    { rxRing := .empty, localCache := fun _ => .empty, pc := fun _ => .idle, free := true
      bound := none, orphans := 0, commands := [], running := true, consumed := [] }
  step s
    | .openSocket gotCommand room =>
        if s.free then
          some (TypedSlot.enqueue { s with free := false } (gotCommand && room) .openSocket)
        else none
    | .acceptInto room =>
        if s.free then some (TypedSlot.enqueue { s with free := false } room .setSocketRing)
        else none
    | .enqueue c => if c.binds || c = .close then none else some (s.enqueue true c)
    | .close a gotCommand room =>
        if s.idle a then
          some (if gotCommand then (s.enqueue room .close).setPc a .flushCache else s)
        else none
    | .receive a => if s.idle a then some (s.setPc a (.receive .start)) else none
    | .advance a => s.advance a
    | .accept a =>
        if s.idle a then
          match s.rxRing.dequeue with
          | none => some s
          | some (e, ring) => some ({ s with rxRing := ring }.consume e .asCommand)
        else none
    | .processCommand ok chains =>
        match s.running, s.commands with
        | true, c :: rest => some (TypedSlot.handle { s with commands := rest } ok chains c)
        | _, _ => none
    | .dataAvailable false chains =>
        match s.running, s.bound with
        | true, some listening => some (s.dataAvailable listening chains)
        | _, _ => none
    | .dataAvailable true chains =>
        if s.running ∧ 0 < s.orphans then some (s.submit chains) else none
    | .onAccept socket gotCommand =>
        if s.running ∧ s.bound = some true then
          if gotCommand then
            some { s with rxRing := (s.rxRing.enqueueBulk 1 [.cmd socket]).2 }
          else some { s with orphans := s.orphans + 1 }
        else none
    | .socketFatal false =>
        if s.running ∧ s.bound ≠ none then some { s.userFlushRx with bound := some false }
        else none
    | .socketFatal true =>
        if s.running ∧ 0 < s.orphans then some { s.userFlushRx with orphans := s.orphans - 1 }
        else none

/-! ## The property and its guard -/

/-- What the elements of the slot should be. -/
def TypedSlot.kind (s : TypedSlot) : Treatment :=
  if s.bound = some true then .asCommand else .asMbuf

/-- The elements are of one kind. -/
def AllOf (treatment : Treatment) (items : List RxItem) : Prop :=
  ∀ e ∈ items, e.treatment = treatment

/-- The ring and the caches of a listening connection have commands, those of others have chains,
and what was removed was taken for what it is. -/
structure TypedSlot.Typed (s : TypedSlot) : Prop where
  ring : AllOf s.kind s.rxRing.items
  caches : ∀ a, AllOf s.kind (s.localCache a).items
  consumed : ∀ c ∈ s.consumed, c.2 = c.1.treatment

/-- A command leaves the elements of the slot with the kind that they have. -/
def TypedSlot.CommandOk (s : TypedSlot) (ok : Bool) : TypedCommand → Prop
  | .listen => ok → s.bound ≠ none → AllOf .asCommand s.rxRing.items ∧
      ∀ a, AllOf .asCommand (s.localCache a).items
  | .close => s.bound ≠ none → AllOf .asMbuf s.rxRing.items
  | .shutdown => ok → s.bound = some true → AllOf .asMbuf s.rxRing.items
  | _ => True

/-- Chains are received and flushed while the ring has no commands, commands are accepted while it
has no chains, LISTEN finds no chains, CLOSE, SHUTDOWN and an error find no commands, and no orphan
has data for a listener. -/
def typedOk (s : TypedSlot) : TypedStep → Prop
  | .advance a =>
      match s.pc a with
      | .receive (.burst _) | .flushRing => AllOf .asMbuf s.rxRing.items
      | _ => True
  | .accept _ => ∀ e ∈ s.rxRing.items.head?, e.treatment = .asCommand
  | .processCommand ok _ => ∀ c ∈ s.commands.head?, s.CommandOk ok c
  | .dataAvailable true chains => s.bound = some true → chains = []
  | .socketFatal _ => AllOf .asMbuf s.rxRing.items
  | _ => True

/-! ## Where elements come from -/

/-- The element that a receive has in hand. -/
def DequeuePc.hand {α : Type} : DequeuePc α → Option α
  | .start => none
  | .clear e | .count e | .burst e | .again e | .kick e => e

def TypedPc.hand : TypedPc → Option RxItem
  | .receive pc => pc.hand
  | _ => none

section Dequeue

variable {α : Type} {slot : Slot α} {pc : DequeuePc α} {x : α}

theorem mem_ring_dequeueStep (hx : x ∈ (slot.dequeueStep pc).1.ring.items) :
    x ∈ slot.ring.items := by
  unfold Slot.dequeueStep at hx
  split at hx
  · split at hx <;> exact hx
  · exact hx
  · exact hx
  · exact List.mem_of_mem_drop hx
  · exact hx
  · split at hx <;> exact hx
  · exact hx

/-- The cache is filled by the burst only. -/
theorem mem_cache_dequeueStep (hx : x ∈ (slot.dequeueStep pc).1.cache.items) :
    x ∈ slot.cache.items ∨ (∃ e, pc = .burst e) ∧ x ∈ slot.ring.items := by
  unfold Slot.dequeueStep at hx
  split at hx
  · split at hx
    next y cache hcache =>
        rw [(Ring.dequeue_eq_some_iff _ _ _).mp hcache]
        exact .inl (List.mem_cons_of_mem y hx)
    next => exact .inl hx
  · exact .inl hx
  · exact .inl hx
  · dsimp only [Ring.enqueueBurst] at hx
    rcases List.mem_append.mp hx with hx | hx
    · exact .inl hx
    · exact .inr ⟨⟨_, rfl⟩, List.mem_of_mem_take (List.mem_of_mem_take hx)⟩
  · exact .inl hx
  · split at hx
    next y cache hcache =>
        rw [(Ring.dequeue_eq_some_iff _ _ _).mp hcache]
        exact .inl (List.mem_cons_of_mem y hx)
    next => exact .inl hx
  · exact .inl hx

theorem hand_dequeueStep (hx : (slot.dequeueStep pc).2.hand = some x) :
    pc.hand = some x ∨ x ∈ slot.cache.items := by
  unfold Slot.dequeueStep at hx
  split at hx
  · split at hx
    next y cache hcache =>
        rw [(Ring.dequeue_eq_some_iff _ _ _).mp hcache]
        obtain rfl := Option.some.inj hx
        exact .inr List.mem_cons_self
    next => cases hx
  · exact .inl hx
  · dsimp only at hx
    split at hx <;> exact .inl hx
  · exact .inl hx
  · exact .inl hx
  · split at hx
    next y cache hcache =>
        rw [(Ring.dequeue_eq_some_iff _ _ _).mp hcache]
        obtain rfl := Option.some.inj hx
        exact .inr List.mem_cons_self
    next => cases hx
  · exact .inl hx

end Dequeue

/-! ## Steps -/

/-- How many times the slot is free, on its way to a socket or bound. -/
def TypedSlot.uses (s : TypedSlot) : ℕ :=
  s.free.toNat + s.commands.countP TypedCommand.binds + s.bound.isSome.toNat

/-- The caches and the hands never have commands, and the slot has one use at most. -/
structure TypedInv (s : TypedSlot) : Prop extends s.Typed where
  chains : ∀ a, AllOf .asMbuf (s.localCache a).items
  hands : ∀ a e, (s.pc a).hand = some e → e.treatment = .asMbuf
  uses : s.uses ≤ 1

section Steps

variable {s t : TypedSlot}

theorem kind_of_not_listening (hbound : s.bound ≠ some true) : s.kind = .asMbuf := if_neg hbound

/-- Only the ring changes, and its elements are of the kind of the slot. -/
theorem TypedInv.setRing (h : TypedInv s) {ring : Ring RxItem dataRingCapacity}
    (hring : AllOf s.kind ring.items) : TypedInv { s with rxRing := ring } :=
  ⟨⟨hring, h.caches, h.consumed⟩, h.chains, h.hands, h.uses⟩

theorem TypedInv.setPc (h : TypedInv s) (a : ℕ) {pc : TypedPc}
    (hpc : ∀ e, pc.hand = some e → e.treatment = .asMbuf) : TypedInv (s.setPc a pc) := by
  refine ⟨⟨h.ring, h.caches, h.consumed⟩, h.chains, fun b e he => ?_, h.uses⟩
  unfold TypedSlot.setPc at he
  dsimp only at he
  rw [Function.update_apply] at he
  split at he
  next => exact hpc e he
  next => exact h.hands b e he

theorem TypedInv.setCache (h : TypedInv s) (a : ℕ) {cache : Ring RxItem localCacheCapacity}
    (hkind : AllOf s.kind cache.items) (hchains : AllOf .asMbuf cache.items) :
    TypedInv (s.setCache a cache) := by
  refine ⟨⟨h.ring, fun b => ?_, h.consumed⟩, fun b => ?_, h.hands, h.uses⟩
  · unfold TypedSlot.setCache
    dsimp only
    rw [Function.update_apply]
    split
    next => exact hkind
    next => exact h.caches b
  · unfold TypedSlot.setCache
    dsimp only
    rw [Function.update_apply]
    split
    next => exact hchains
    next => exact h.chains b

theorem TypedInv.consume (h : TypedInv s) {e : RxItem} {treatment : Treatment}
    (he : e.treatment = treatment) : TypedInv (s.consume e treatment) := by
  refine ⟨⟨h.ring, h.caches, fun c hc => ?_⟩, h.chains, h.hands, h.uses⟩
  rcases List.mem_cons.mp hc with rfl | hc
  · exact he.symm
  · exact h.consumed c hc

theorem TypedInv.stop (h : TypedInv s) : TypedInv s.stop :=
  ⟨⟨h.ring, h.caches, h.consumed⟩, h.chains, h.hands, h.uses⟩

theorem TypedInv.submit (h : TypedInv s) {chains : List ℕ}
    (hchains : s.bound = some true → chains = []) : TypedInv (s.submit chains) := by
  refine h.setRing fun e he => ?_
  rcases List.mem_append.mp he with he | he
  · exact h.ring e he
  · obtain ⟨chain, hmem, rfl⟩ := List.mem_map.mp (List.mem_of_mem_take he)
    by_cases hbound : s.bound = some true
    · rw [hchains hbound] at hmem
      cases hmem
    · exact (kind_of_not_listening hbound).symm

theorem TypedInv.dataAvailable (h : TypedInv s) {listening : Bool}
    (hbound : s.bound = some listening) (chains : List ℕ) :
    TypedInv (s.dataAvailable listening chains) := by
  unfold TypedSlot.dataAvailable
  split
  next => exact h.stop
  next hlistening =>
      refine h.submit fun htrue => absurd ?_ hlistening
      rw [hbound] at htrue
      exact Option.some.inj htrue

/-- A flush of a ring without commands. -/
theorem TypedInv.userFlushRx (h : TypedInv s) (hring : AllOf .asMbuf s.rxRing.items) :
    TypedInv s.userFlushRx := by
  refine ⟨⟨nofun, h.caches, fun c hc => ?_⟩, h.chains, h.hands, h.uses⟩
  rcases List.mem_append.mp hc with hc | hc
  · obtain ⟨e, he, rfl⟩ := List.mem_map.mp hc
    exact (hring e he).symm
  · exact h.consumed c hc

/-- The socket of the slot changes where the elements are of the new kind already. -/
theorem TypedInv.setBound (h : TypedInv s) {bound : Option Bool} {free : Bool}
    (hring : AllOf (TypedSlot.kind { s with bound := bound }) s.rxRing.items)
    (hcaches : ∀ a, AllOf (TypedSlot.kind { s with bound := bound }) (s.localCache a).items)
    (huses : TypedSlot.uses { s with bound := bound, free := free } ≤ 1) :
    TypedInv { s with bound := bound, free := free } :=
  ⟨⟨hring, hcaches, h.consumed⟩, h.chains, h.hands, huses⟩

theorem uses_enqueue (room : Bool) (c : TypedCommand) :
    (s.enqueue room c).uses ≤ s.uses + c.binds.toNat := by
  unfold TypedSlot.enqueue
  split
  · simp only [TypedSlot.uses, List.countP_append, List.countP_singleton]
    cases c.binds
    · simp
    · simp
      omega
  · exact Nat.le_add_right _ _

theorem TypedInv.enqueue (h : TypedInv s) {room : Bool} {c : TypedCommand}
    (huses : s.uses + c.binds.toNat ≤ 1) : TypedInv (s.enqueue room c) := by
  have hle := (uses_enqueue (s := s) room c).trans huses
  unfold TypedSlot.enqueue at hle ⊢
  split
  next hroom =>
      rw [if_pos hroom] at hle
      exact ⟨⟨h.ring, h.caches, h.consumed⟩, h.chains, h.hands, hle⟩
  next => exact h

/-- The caches fit a slot that does not listen. -/
theorem TypedInv.caches_of_not_listening (h : TypedInv s) {bound : Option Bool}
    (hbound : bound ≠ some true) (a : ℕ) :
    AllOf (TypedSlot.kind { s with bound := bound }) (s.localCache a).items := by
  rw [kind_of_not_listening (s := { s with bound := bound }) hbound]
  exact h.chains a

/-- The slot ends up with a socket that does not listen. -/
theorem TypedInv.unlisten (h : TypedInv s) {bound : Option Bool} {free : Bool}
    (hbound : bound ≠ some true) (hring : AllOf .asMbuf s.rxRing.items)
    (huses : TypedSlot.uses { s with bound := bound, free := free } ≤ 1) :
    TypedInv { s with bound := bound, free := free } := by
  refine h.setBound ?_ (h.caches_of_not_listening hbound) huses
  rw [kind_of_not_listening (s := { s with bound := bound }) hbound]
  exact hring

/-- The ring of a slot that does not listen has chains. -/
theorem TypedInv.ring_of_not_listening (h : TypedInv s) (hbound : s.bound ≠ some true) :
    AllOf .asMbuf s.rxRing.items := by
  have hring := h.ring
  rwa [kind_of_not_listening hbound] at hring

theorem TypedInv.handle (h : TypedInv s) {ok : Bool} {c : TypedCommand}
    (huses : c.binds → s.uses = 0) (hok : s.CommandOk ok c) (chains : List ℕ) :
    TypedInv (s.handle ok chains c) := by
  have hunbound : c.binds → s.free = false ∧ s.commands.countP TypedCommand.binds = 0 ∧
      s.bound = none := by
    intro hbinds
    have hzero := huses hbinds
    simp only [TypedSlot.uses, Nat.add_eq_zero_iff, Bool.toNat_eq_zero] at hzero
    have hnone : s.bound.isNone := Option.isSome_eq_false_iff.mp hzero.2
    exact ⟨hzero.1.1, hzero.1.2, Option.isNone_iff_eq_none.mp hnone⟩
  have hbind : c.binds → TypedInv { s with bound := some false } := by
    intro hbinds
    obtain ⟨hfree, hcount, hbound⟩ := hunbound hbinds
    refine h.unlisten nofun (h.ring_of_not_listening (hbound ▸ nofun)) ?_
    simp [TypedSlot.uses, hfree, hcount]
  have hsame : ∀ bound : Option Bool, bound.isSome = s.bound.isSome →
      TypedSlot.uses { s with bound := bound } ≤ 1 := by
    intro bound hsome
    have hle := h.uses
    simp only [TypedSlot.uses] at hle ⊢
    rwa [hsome]
  unfold TypedSlot.handle
  cases c with
  | openSocket =>
      dsimp only
      split
      · exact hbind rfl
      · exact h
  | setSocketRing => exact (hbind rfl).submit nofun
  | listen =>
      dsimp only
      split
      next => exact h.stop
      next listening hbound =>
          split
          next hanswer =>
              obtain ⟨hring, hcaches⟩ := hok hanswer (by rw [hbound]; nofun)
              refine h.setBound hring hcaches (hsame _ ?_)
              rw [hbound]
              rfl
          next => exact h
  | close =>
      dsimp only
      split
      next => exact h
      next listening hbound =>
          have hring := hok (by rw [hbound]; nofun)
          refine (h.userFlushRx hring).unlisten nofun nofun ?_
          have hle := h.uses
          simp only [TypedSlot.uses, hbound, TypedSlot.userFlushRx, Option.isSome_some,
            Option.isSome_none, Bool.toNat_true, Bool.toNat_false] at hle ⊢
          omega
  | shutdown =>
      dsimp only
      split
      next hbound =>
          split
          next hanswer =>
              refine h.unlisten nofun (hok hanswer hbound) (hsame _ ?_)
              rw [hbound]
              rfl
          next => exact h
      next => exact h
  | rxKick =>
      dsimp only
      split
      next => exact h
      next listening hbound => exact h.dataAvailable hbound chains
  | setSocketSelect =>
      dsimp only
      split
      next => exact h
      next listening hbound => exact h.dataAvailable hbound chains

theorem TypedInv.processCommand (h : TypedInv s) {ok : Bool} {c : TypedCommand}
    {rest : List TypedCommand} (hcommands : s.commands = c :: rest) (hok : s.CommandOk ok c)
    (chains : List ℕ) : TypedInv (TypedSlot.handle { s with commands := rest } ok chains c) := by
  have huses := h.uses
  simp only [TypedSlot.uses, hcommands, List.countP_cons] at huses
  have htaken : TypedInv { s with commands := rest } := by
    refine ⟨⟨h.ring, h.caches, h.consumed⟩, h.chains, h.hands, ?_⟩
    simp only [TypedSlot.uses]
    omega
  refine htaken.handle (fun hbinds => ?_) ?_ chains
  · rw [if_pos hbinds] at huses
    simp only [TypedSlot.uses]
    omega
  · cases c with
    | listen => exact hok
    | close => exact hok
    | shutdown => exact hok
    | _ => trivial

theorem TypedInv.dequeueStep (h : TypedInv s) {a : ℕ} {pc : DequeuePc RxItem}
    (hpc : s.pc a = .receive pc)
    (hok : ∀ e, pc = .burst e → AllOf .asMbuf s.rxRing.items) :
    TypedInv (({ s with
      rxRing := (Slot.dequeueStep ⟨s.rxRing, s.localCache a, false⟩ pc).1.ring }.setCache a
      (Slot.dequeueStep ⟨s.rxRing, s.localCache a, false⟩ pc).1.cache).setPc a
      (.receive (Slot.dequeueStep ⟨s.rxRing, s.localCache a, false⟩ pc).2)) := by
  refine ((h.setRing fun e he => h.ring e (mem_ring_dequeueStep he)).setCache a ?_ ?_).setPc a ?_
  · intro e he
    rcases mem_cache_dequeueStep he with he | ⟨_, he⟩
    · exact h.caches a e he
    · exact h.ring e he
  · intro e he
    rcases mem_cache_dequeueStep he with he | ⟨⟨x, hburst⟩, he⟩
    · exact h.chains a e he
    · exact hok x hburst e he
  · intro e he
    rcases hand_dequeueStep he with he | he
    · exact h.hands a e (by rw [hpc]; exact he)
    · exact h.chains a e he

theorem TypedInv.advance (h : TypedInv s) {a : ℕ} (hok : typedOk s (.advance a))
    (ht : s.advance a = some t) : TypedInv t := by
  unfold TypedSlot.advance at ht
  split at ht
  next => cases ht
  next =>
      cases ht
      exact h.setPc a nofun
  next e hpc =>
      cases ht
      refine (h.consume ?_).setPc a nofun
      exact h.hands a e (by rw [hpc]; rfl)
  next pc _ _ hpc =>
      cases ht
      refine h.dequeueStep hpc fun e hburst => ?_
      simpa only [typedOk, hpc, hburst] using hok
  next hpc =>
      split at ht
      next =>
          cases ht
          exact h.setPc a nofun
      next e cache hcache =>
          cases ht
          have hitems := (Ring.dequeue_eq_some_iff _ _ _).mp hcache
          have hsub : ∀ x ∈ cache.items, x ∈ (s.localCache a).items := by
            intro x hx
            rw [hitems]
            exact List.mem_cons_of_mem e hx
          refine (h.setCache a (fun x hx => h.caches a x (hsub x hx))
            fun x hx => h.chains a x (hsub x hx)).consume ?_
          exact h.chains a e (hitems ▸ List.mem_cons_self)
  next hpc =>
      simp only [typedOk, hpc] at hok
      split at ht
      next =>
          cases ht
          exact h.setPc a nofun
      next e ring hring =>
          cases ht
          have hitems := (Ring.dequeue_eq_some_iff _ _ _).mp hring
          refine (h.setRing fun x hx => ?_).consume (hok e (hitems ▸ List.mem_cons_self))
          exact h.ring x (hitems ▸ List.mem_cons_of_mem e hx)

theorem typedInv_step {step : TypedStep} (h : TypedInv s) (hok : typedOk s step)
    (ht : typedMachine.step s step = some t) : TypedInv t := by
  have htake : ∀ {room : Bool} {c : TypedCommand}, s.free = true → c.binds = true →
      TypedInv (TypedSlot.enqueue { s with free := false } room c) := by
    intro room c hfree hbinds
    have huses := h.uses
    simp only [TypedSlot.uses, hfree, Bool.toNat_true] at huses
    have htaken : TypedInv { s with free := false } := by
      refine ⟨⟨h.ring, h.caches, h.consumed⟩, h.chains, h.hands, ?_⟩
      simp only [TypedSlot.uses, Bool.toNat_false]
      omega
    refine htaken.enqueue ?_
    simp only [TypedSlot.uses, hbinds, Bool.toNat_false, Bool.toNat_true]
    omega
  cases step with
  | openSocket gotCommand room =>
      simp only [typedMachine] at ht
      split at ht
      next hfree =>
          cases ht
          exact htake hfree rfl
      next => cases ht
  | acceptInto room =>
      simp only [typedMachine] at ht
      split at ht
      next hfree =>
          cases ht
          exact htake hfree rfl
      next => cases ht
  | enqueue c =>
      simp only [typedMachine] at ht
      split at ht
      next => cases ht
      next hplain =>
          cases ht
          have hbinds : c.binds = false := by
            cases hc : c.binds with
            | false => rfl
            | true => exact absurd (by rw [hc]; rfl) hplain
          refine h.enqueue ?_
          rw [hbinds]
          exact h.uses
  | close a gotCommand room =>
      simp only [typedMachine] at ht
      split at ht
      next =>
          cases ht
          split
          · exact (h.enqueue (c := .close) h.uses).setPc a nofun
          · exact h
      next => cases ht
  | receive a =>
      simp only [typedMachine] at ht
      split at ht
      next =>
          cases ht
          exact h.setPc a nofun
      next => cases ht
  | advance a => exact h.advance hok ht
  | accept a =>
      simp only [typedMachine] at ht
      split at ht
      next =>
          split at ht
          next =>
              cases ht
              exact h
          next e ring hring =>
              cases ht
              have hitems := (Ring.dequeue_eq_some_iff _ _ _).mp hring
              refine (h.setRing fun x hx => ?_).consume (hok e (by rw [hitems]; rfl))
              exact h.ring x (hitems ▸ List.mem_cons_of_mem e hx)
      next => cases ht
  | processCommand ok chains =>
      simp only [typedMachine] at ht
      split at ht
      next c rest _ hcommands =>
          cases ht
          exact h.processCommand hcommands (hok c (by rw [hcommands]; rfl)) chains
      next => cases ht
  | dataAvailable orphan chains =>
      cases orphan with
      | false =>
          simp only [typedMachine] at ht
          split at ht
          next listening _ hbound =>
              cases ht
              exact h.dataAvailable hbound chains
          next => cases ht
      | true =>
          simp only [typedMachine] at ht
          split at ht
          next =>
              cases ht
              exact h.submit hok
          next => cases ht
  | onAccept socket gotCommand =>
      simp only [typedMachine] at ht
      split at ht
      next hready =>
          split at ht
          next =>
              cases ht
              refine h.setRing fun e he => ?_
              rw [Ring.items_enqueueBulk] at he
              split at he
              · exact h.ring e he
              · rcases List.mem_append.mp he with he | he
                · exact h.ring e he
                · rw [List.mem_singleton.mp he]
                  exact (if_pos hready.2).symm
          next =>
              cases ht
              exact ⟨⟨h.ring, h.caches, h.consumed⟩, h.chains, h.hands, h.uses⟩
      next => cases ht
  | socketFatal orphan =>
      have hflush := h.userFlushRx hok
      cases orphan with
      | false =>
          simp only [typedMachine] at ht
          split at ht
          next hready =>
              cases ht
              refine hflush.unlisten nofun nofun ?_
              have hle := hflush.uses
              have hsome : s.bound.isSome = true := Option.isSome_iff_ne_none.mpr hready.2
              simp only [TypedSlot.uses, TypedSlot.userFlushRx, hsome] at hle ⊢
              exact hle
          next => cases ht
      | true =>
          simp only [typedMachine] at ht
          split at ht
          next =>
              cases ht
              exact ⟨⟨hflush.ring, hflush.caches, hflush.consumed⟩, hflush.chains, hflush.hands,
                hflush.uses⟩
          next => cases ht

end Steps

theorem typedInv_init : TypedInv typedMachine.init :=
  ⟨⟨nofun, fun _ => nofun, nofun⟩, fun _ => nofun, fun _ _ => nofun, le_rfl⟩

/-- **Objects keep their type.**  In every run in which receives and flushes find no commands,
accepts find no chains, a socket starts and stops to listen while the slot has nothing of the other
kind and orphans have no data for a listener, the ring and the caches of a listening connection
have commands only, those of other connections chains only, and every element that was removed was
taken for what it is. -/
theorem ring_elements_keep_type (s : TypedSlot) (hreach : typedMachine.ReachableWhere typedOk s) :
    s.Typed := by
  have hinv : TypedInv s := by
    refine typedMachine.invariant_of_step typedInv_init ?_ hreach
    intro s step t h hok hstep
    exact typedInv_step h hok hstep
  exact hinv.toTyped

/-- A connection is accepted from a listener, whose ring then is empty. -/
theorem ring_elements_keep_type_accepted : ∃ s, typedMachine.ReachableWhere typedOk s ∧
    s.bound = some true ∧ s.consumed = [(.cmd 7, .asCommand)] ∧ s.Typed := by
  have hopen : typedMachine.ReachableWhere typedOk _ :=
    Machine.ReachableWhere.init.step (a := TypedStep.openSocket true true) trivial rfl
  have hbound := hopen.step (a := TypedStep.processCommand true [])
    (fun c hc => by cases hc; trivial) rfl
  have hqueued := hbound.step (a := TypedStep.enqueue .listen) trivial rfl
  have hlisten := hqueued.step (a := TypedStep.processCommand true [])
    (fun c hc => by cases hc; exact fun _ _ => ⟨nofun, fun _ => nofun⟩) rfl
  have hposted := hlisten.step (a := TypedStep.onAccept 7 true) trivial rfl
  have haccepted := hposted.step (a := TypedStep.accept 0) (fun e he => by cases he; rfl) rfl
  exact ⟨_, haccepted, rfl, rfl, ring_elements_keep_type _ haccepted⟩

/-- A command of a listening connection is freed as a chain when the client closes it. -/
theorem close_frees_command_as_mbuf : ∃ s, typedMachine.run
    [.openSocket true true, .processCommand true [], .enqueue .listen, .processCommand true [],
      .onAccept 7 true, .close 0 true true, .advance 0, .advance 0] = some s ∧
    s.consumed = [(.cmd 7, .asMbuf)] ∧ ¬ s.Typed := by
  refine ⟨_, rfl, rfl, fun h => ?_⟩
  have hwrong := h.consumed (.cmd 7, .asMbuf) List.mem_cons_self
  cases hwrong

end IpAugenblick
