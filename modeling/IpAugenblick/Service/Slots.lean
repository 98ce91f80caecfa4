/-
# Who owns a connection slot

A client takes an index from `free_connections_ring`, asks the service to open a
socket on it, and later asks the service to close it; the service puts the index
back.  This module runs any number of clients against the service and follows, for
every index, the client it belongs to: from the moment the index leaves the ring
until its client has queued a CLOSE.

Two things can go wrong.  A client keeps `local_socket_descriptors[i].socket` past
its close, so `sig_handler` closes the index again, whoever has it by then; and
the service may free an index while the client that queued the CLOSE is still
inside `ipaugenblick_flush_rx`.
-/

import IpAugenblick.Client.Receive

namespace IpAugenblick

open Lib

/-- `IPAUGENBLICK_CONNECTION_POOL_SIZE`. -/
def connectionPoolSize : ℕ := 2048

/-- What a command does to the slot it names. -/
inductive SlotCommandKind
  | openSocket
  | setSocketRing
  | close
  | /-- Any other command that names a slot. -/
    other
  deriving DecidableEq, Repr

structure SlotCommand where
  client : ℕ
  kind : SlotCommandKind
  ringsetIdx : ℕ
  deriving DecidableEq, Repr

inductive SlotPc
  | /-- Between two calls. -/
    idle
  | /-- In `ipaugenblick_open_socket` with an index in hand. -/
    opening (idx : ℕ)
  | /-- In `ipaugenblick_accept` with an index in hand. -/
    accepting (idx : ℕ)
  | /-- In `ipaugenblick_close`, in or before `ipaugenblick_flush_rx`. -/
    flushing (idx : ℕ)
  | /-- In the loop of `sig_handler`. -/
    signalled (i : ℕ)
  | /-- In the `ipaugenblick_close` that `sig_handler` calls. -/
    signalFlushing (i : ℕ)
  | /-- Terminated. -/
    dead
  deriving DecidableEq, Repr

structure SlotClient where
  pc : SlotPc
  /-- `local_socket_descriptors[i].socket` is set. -/
  descr : ℕ → Bool
  /-- The application got `i` from an open or accept and has not closed it. -/
  handle : ℕ → Bool

/-- An effect on a connection: who caused it and whose the connection was. -/
structure Effect where
  client : ℕ
  idx : ℕ
  owner : Option ℕ
  deriving DecidableEq, Repr

/-- The clients, the service and what they share.  `owner` and `effects` are a record: the code
knows no owner, and it is from the record that an effect on somebody else's connection can be
told. -/
structure SlotState where
  freeConnectionsRing : Ring ℕ (connectionPoolSize - 1)
  commandRing : Ring SlotCommand commandRingCapacity
  /-- `socket_satelite_data[i].socket` is set. -/
  satelite : ℕ → Bool
  clients : ℕ → SlotClient
  /-- The client that an index belongs to. -/
  owner : ℕ → Option ℕ
  /-- Every effect on a connection so far, latest first. -/
  effects : List Effect

inductive SlotStep
  | /-- `ipaugenblick_open_socket` takes an index. -/
    openDequeue (client : ℕ)
  | /-- `ipaugenblick_open_socket` queues OPEN, if it gets a command buffer. -/
    openEnqueue (client : ℕ) (gotCommand : Bool)
  | /-- `ipaugenblick_accept` takes an index. -/
    acceptDequeue (client : ℕ)
  | /-- `ipaugenblick_accept` queues SET_SOCKET_RING. -/
    acceptEnqueue (client : ℕ)
  | /-- `ipaugenblick_close` queues CLOSE, if it gets a command buffer. -/
    close (client idx : ℕ) (gotCommand : Bool)
  | /-- A part of `ipaugenblick_flush_rx`, or the last one. -/
    flush (client : ℕ) (more : Bool)
  | /-- A call that works on the connection directly: send, receive, kick, accept. -/
    access (client idx : ℕ)
  | /-- A call that queues some other command for the connection. -/
    command (client idx : ℕ)
  | /-- A signal other than SIGUSR1. -/
    signal (client : ℕ)
  | /-- One round of the loop of `sig_handler`. -/
    sigHandler (client : ℕ) (gotCommand : Bool)
  | /-- `process_commands`; `created` when `app_glue_create_socket` succeeds. -/
    processCommands (created : Bool)
  deriving DecidableEq, Repr

namespace SlotState

def setClient (s : SlotState) (a : ℕ) (c : SlotClient) : SlotState :=
  { s with clients := Function.update s.clients a c }

theorem clients_setClient_self (s : SlotState) (a : ℕ) (c : SlotClient) :
    (s.setClient a c).clients a = c := Function.update_self _ _ _

def setPc (s : SlotState) (a : ℕ) (pc : SlotPc) : SlotState :=
  s.setClient a { s.clients a with pc }

/-- Record an effect of client `a` on connection `i`. -/
def effect (s : SlotState) (a i : ℕ) : SlotState :=
  { s with effects := ⟨a, i, s.owner i⟩ :: s.effects }

/-- `ipaugenblick_enqueue_command_buf`. -/
def enqueueCommandBuf (s : SlotState) (cmd : SlotCommand) : SlotState :=
  { s with commandRing := (s.commandRing.enqueueBulk (commandRingCapacity + 1) [cmd]).2 }

/-- The command ring has room for one more command. -/
def hasRoom (s : SlotState) : Bool := 0 < s.commandRing.freeCount

/-- Take an index from `free_connections_ring`. -/
def takeFree (s : SlotState) (a : ℕ) (pc : ℕ → SlotPc) : Option SlotState :=
  if (s.clients a).pc = .idle then
    match s.freeConnectionsRing.dequeue with
    | none => none
    | some (i, ring) =>
        some (setPc { s with
          freeConnectionsRing := ring
          owner := Function.update s.owner i (some a) } a (pc i))
  else none

/-- The first half of `ipaugenblick_close`: queue CLOSE and go on to the flush, or
return at once without a command buffer.  A connection of the client's own is given
up when the CLOSE is in the ring. -/
def queueClose (s : SlotState) (a i : ℕ) (gotCommand : Bool) (flushing done : SlotPc) :
    SlotState :=
  if gotCommand then
    if s.hasRoom then
      setPc { s.enqueueCommandBuf ⟨a, .close, i⟩ with
        owner := if s.owner i = some a then Function.update s.owner i none else s.owner } a flushing
    else s.setPc a flushing
  else s.setPc a done

/-- `process_commands` on one command. -/
def processCommand (s : SlotState) (created : Bool) (cmd : SlotCommand) : SlotState :=
  let s := s.effect cmd.client cmd.ringsetIdx
  match cmd.kind with
  | .openSocket =>
      if created then { s with satelite := Function.update s.satelite cmd.ringsetIdx true } else s
  | .setSocketRing => { s with satelite := Function.update s.satelite cmd.ringsetIdx true }
  | .close =>
      if s.satelite cmd.ringsetIdx then
        { s with
          satelite := Function.update s.satelite cmd.ringsetIdx false
          freeConnectionsRing :=
            (s.freeConnectionsRing.enqueueBulk connectionPoolSize [cmd.ringsetIdx]).2 }
      else s
  | .other => s

end SlotState

/-- The indices that fit the ring when the service starts. -/
def initialConnections : Ring ℕ (connectionPoolSize - 1) := Ring.empty.enqueueBurst
  (List.range connectionPoolSize)

/-- The clients and the service.  An index goes through rings and commands from one client to the
next, and the calls are cut where others or `sig_handler` may come in. -/
def slotMachine : Machine SlotState SlotStep where
  init :=
    { freeConnectionsRing := initialConnections
      commandRing := .empty
      satelite := fun _ => false
      clients := fun _ => { pc := .idle, descr := fun _ => false, handle := fun _ => false }
      owner := fun _ => none
      effects := [] }
  step s
    | .openDequeue a => s.takeFree a .opening
    | .openEnqueue a gotCommand =>
        match (s.clients a).pc with
        | .opening i =>
            if gotCommand && s.hasRoom then
              some ((s.enqueueCommandBuf ⟨a, .openSocket, i⟩).setClient a
                { pc := .idle
                  descr := Function.update (s.clients a).descr i true
                  handle := Function.update (s.clients a).handle i true })
            else some (s.setPc a .idle)
        | _ => none
    | .acceptDequeue a => s.takeFree a .accepting
    | .acceptEnqueue a =>
        match (s.clients a).pc with
        | .accepting i =>
            if s.hasRoom then
              some ((s.enqueueCommandBuf ⟨a, .setSocketRing, i⟩).setClient a
                { pc := .idle
                  descr := Function.update (s.clients a).descr i true
                  handle := Function.update (s.clients a).handle i true })
            else
              some (s.setClient a
                { s.clients a with
                  pc := .idle
                  descr := Function.update (s.clients a).descr i true })
        | _ => none
    | .close a i gotCommand =>
        if (s.clients a).pc = .idle ∧ (s.clients a).handle i = true then
          let s := s.setClient a
            { s.clients a with handle := Function.update (s.clients a).handle i false }
          some (s.queueClose a i gotCommand (.flushing i) .idle)
        else none
    | .flush a more =>
        match (s.clients a).pc with
        | .flushing i =>
            if more then some (s.effect a i) else some ((s.effect a i).setPc a .idle)
        | .signalFlushing i =>
            if more then some (s.effect a i)
            else some ((s.effect a i).setPc a (.signalled (i + 1)))
        | _ => none
    | .access a i =>
        if (s.clients a).pc = .idle then some (s.effect a i) else none
    | .command a i =>
        if (s.clients a).pc = .idle then some (s.enqueueCommandBuf ⟨a, .other, i⟩) else none
    | .signal a =>
        if (s.clients a).pc = .dead then none else some (s.setPc a (.signalled 0))
    | .sigHandler a gotCommand =>
        match (s.clients a).pc with
        | .signalled i =>
            if connectionPoolSize ≤ i then some (s.setPc a .dead)
            else if (s.clients a).descr i then
              some (s.queueClose a i gotCommand (.signalFlushing i) (.signalled (i + 1)))
            else some (s.setPc a (.signalled (i + 1)))
        | _ => none
    | .processCommands created =>
        match s.commandRing.dequeue with
        | none => none
        | some (cmd, ring) =>
            some (SlotState.processCommand { s with commandRing := ring } created cmd)

/-! ## The condition -/

def flushedIdx : SlotPc → Option ℕ
  | .flushing i => some i
  | .signalFlushing i => some i
  | _ => none

/-- The index a client has taken and not asked the service about yet. -/
def takenIdx : SlotPc → Option ℕ
  | .opening i => some i
  | .accepting i => some i
  | _ => none

def alive : SlotPc → Bool
  | .signalled _ => false
  | .signalFlushing _ => false
  | .dead => false
  | _ => true

/-- What `sig_handler` closes in this round still belongs to its client. -/
def closesOwn (s : SlotState) (a : ℕ) : SlotPc → Prop
  | .signalled i => (s.clients a).descr i = true → s.owner i = some a
  | _ => True

instance decidableClosesOwn (s : SlotState) (a : ℕ) : (pc : SlotPc) → Decidable (closesOwn s a pc)
  | .signalled i =>
      inferInstanceAs (Decidable ((s.clients a).descr i = true → s.owner i = some a))
  | .idle => isTrue trivial
  | .opening _ => isTrue trivial
  | .accepting _ => isTrue trivial
  | .flushing _ => isTrue trivial
  | .signalFlushing _ => isTrue trivial
  | .dead => isTrue trivial

/-- The client of a CLOSE has left `ipaugenblick_flush_rx`. -/
def flushDone (s : SlotState) : List SlotCommand → Prop
  | [] => True
  | cmd :: _ => cmd.kind = .close → flushedIdx (s.clients cmd.client).pc ≠ some cmd.ringsetIdx

instance decidableFlushDone (s : SlotState) :
    (cmds : List SlotCommand) → Decidable (flushDone s cmds)
  | [] => isTrue trivial
  | cmd :: _ => inferInstanceAs (Decidable
      (cmd.kind = .close → flushedIdx (s.clients cmd.client).pc ≠ some cmd.ringsetIdx))

/-- The steps on which a run keeps clear of the two faults: `sig_handler` closes what
still belongs to its client, the service processes a CLOSE whose client has left
`ipaugenblick_flush_rx`, and calls are made on connections that were opened. -/
def slotOk (s : SlotState) : SlotStep → Prop
  | .sigHandler a _ => closesOwn s a (s.clients a).pc
  | .processCommands _ => flushDone s s.commandRing.items
  | .access a i => (s.clients a).handle i = true
  | .command a i => (s.clients a).handle i = true
  | _ => True

instance decidableSlotOk (s : SlotState) : (a : SlotStep) → Decidable (slotOk s a)
  | .sigHandler a _ => decidableClosesOwn s a _
  | .processCommands _ => decidableFlushDone s _
  | .access a i => inferInstanceAs (Decidable ((s.clients a).handle i = true))
  | .command a i => inferInstanceAs (Decidable ((s.clients a).handle i = true))
  | .openDequeue _ => isTrue trivial
  | .openEnqueue _ _ => isTrue trivial
  | .acceptDequeue _ => isTrue trivial
  | .acceptEnqueue _ => isTrue trivial
  | .close _ _ _ => isTrue trivial
  | .flush _ _ => isTrue trivial
  | .signal _ => isTrue trivial

/-! ## The invariant -/

/-- Where an index can be: in the ring, with the client that took it, in use, or on its way back
with the CLOSE of its last owner.  That CLOSE is the last command of the index, which is why the
owner may be forgotten with it. -/
structure SlotInv (s : SlotState) : Prop where
  nodup : s.freeConnectionsRing.items.Nodup
  free : ∀ i ∈ s.freeConnectionsRing.items, s.satelite i = false ∧ s.owner i = none ∧
    ∀ c ∈ s.commandRing.items, c.ringsetIdx ≠ i
  taken : ∀ a i, takenIdx (s.clients a).pc = some i → s.owner i = some a ∧ s.satelite i = false ∧
    ∀ c ∈ s.commandRing.items, c.ringsetIdx ≠ i
  handle : ∀ a i, alive (s.clients a).pc = true → (s.clients a).handle i = true →
    s.owner i = some a
  flushed : ∀ a i, flushedIdx (s.clients a).pc = some i →
    s.owner i = some a ∨ s.owner i = none ∧ ⟨a, .close, i⟩ ∈ s.commandRing.items
  issued : ∀ c ∈ s.commandRing.items, s.owner c.ringsetIdx = some c.client ∨
    s.owner c.ringsetIdx = none
  closing : ∀ c ∈ s.commandRing.items, c.kind = .close → s.owner c.ringsetIdx = none
  last : s.commandRing.items.Pairwise fun c c' => c.kind = .close → c'.ringsetIdx ≠ c.ringsetIdx
  effects : ∀ e ∈ s.effects, e.owner = none ∨ e.owner = some e.client

namespace SlotInv

variable {s : SlotState} {a i : ℕ}

theorem setClient (h : SlotInv s) {c : SlotClient}
    (htaken : ∀ j, takenIdx c.pc = some j → s.owner j = some a ∧ s.satelite j = false ∧
      ∀ c ∈ s.commandRing.items, c.ringsetIdx ≠ j)
    (hhandle : ∀ j, alive c.pc = true → c.handle j = true → s.owner j = some a)
    (hflushed : ∀ j, flushedIdx c.pc = some j →
      s.owner j = some a ∨ s.owner j = none ∧ ⟨a, .close, j⟩ ∈ s.commandRing.items) :
    SlotInv (s.setClient a c) := by
  have hother : ∀ b, b ≠ a → (s.setClient a c).clients b = s.clients b := fun b hb =>
    Function.update_of_ne hb _ _
  have hself : (s.setClient a c).clients a = c := Function.update_self _ _ _
  refine { h with taken := ?_, handle := ?_, flushed := ?_ }
  · intro b j hb
    by_cases heq : b = a
    · subst heq
      rw [hself] at hb
      exact htaken j hb
    · rw [hother b heq] at hb
      exact h.taken b j hb
  · intro b j halive hb
    by_cases heq : b = a
    · subst heq
      rw [hself] at halive hb
      exact hhandle j halive hb
    · rw [hother b heq] at halive hb
      exact h.handle b j halive hb
  · intro b j hb
    by_cases heq : b = a
    · subst heq
      rw [hself] at hb
      exact hflushed j hb
    · rw [hother b heq] at hb
      exact h.flushed b j hb

/-- A client that leaves a call without taking anything along. -/
theorem setPc (h : SlotInv s) {pc : SlotPc} (htaken : takenIdx pc = none)
    (hflushed : flushedIdx pc = none) (halive : alive pc = true → alive (s.clients a).pc = true) :
    SlotInv (s.setPc a pc) := by
  refine h.setClient ?_ ?_ ?_
  · intro j hj
    rw [htaken] at hj
    cases hj
  · intro j hpc hj
    exact h.handle a j (halive hpc) hj
  · intro j hj
    rw [hflushed] at hj
    cases hj

theorem effect (h : SlotInv s) (howner : s.owner i = none ∨ s.owner i = some a) :
    SlotInv (s.effect a i) := by
  refine { h with effects := ?_ }
  intro e he
  rcases List.mem_cons.mp he with rfl | hold
  · exact howner
  · exact h.effects e hold

/-- A client flushes its own connection, or one that it gave back. -/
theorem effect_flushed (h : SlotInv s) (hpc : flushedIdx (s.clients a).pc = some i) :
    SlotInv (s.effect a i) :=
  h.effect ((h.flushed a i hpc).symm.imp_left And.left)

theorem items_enqueueCommandBuf (s : SlotState) (cmd : SlotCommand) :
    (s.enqueueCommandBuf cmd).commandRing.items =
      if s.hasRoom then s.commandRing.items ++ [cmd] else s.commandRing.items := by
  have hitems := Ring.items_enqueueBulk (commandRingCapacity + 1) s.commandRing [cmd]
  rw [SlotState.enqueueCommandBuf, hitems, SlotState.hasRoom]
  by_cases hroom : 0 < s.commandRing.freeCount
  · rw [if_neg (by rw [List.length_singleton]; omega), if_pos (by simpa using hroom)]
  · rw [if_pos (by rw [List.length_singleton]; omega), if_neg (by simpa using hroom)]

/-- The owner of a connection queues a command for it, a CLOSE only with giving it
up. -/
theorem enqueue (h : SlotInv s) {t : SlotState} (cmd : SlotCommand)
    (hring : t.freeConnectionsRing = s.freeConnectionsRing) (hsat : t.satelite = s.satelite)
    (hclients : t.clients = s.clients) (heffects : t.effects = s.effects)
    (hitems : t.commandRing.items = s.commandRing.items ++ [cmd])
    (howner : s.owner cmd.ringsetIdx = some cmd.client)
    (hnot : ∀ b j, takenIdx (s.clients b).pc = some j → j ≠ cmd.ringsetIdx)
    (hsame : ∀ j, j ≠ cmd.ringsetIdx → t.owner j = s.owner j)
    (hself : if cmd.kind = .close then t.owner cmd.ringsetIdx = none
      else t.owner cmd.ringsetIdx = some cmd.client)
    (hhandle : cmd.kind = .close → ∀ b, alive (s.clients b).pc = true →
      (s.clients b).handle cmd.ringsetIdx = false) : SlotInv t := by
  have hmem : ∀ c, c ∈ t.commandRing.items → c ∈ s.commandRing.items ∨ c = cmd := by
    intro c hc
    rw [hitems] at hc
    simpa using hc
  have hcases : t.owner cmd.ringsetIdx = some cmd.client ∨ t.owner cmd.ringsetIdx = none := by
    split at hself
    · exact .inr hself
    · exact .inl hself
  exact
    { nodup := by
        rw [hring]
        exact h.nodup
      free := by
        intro j hj
        rw [hring] at hj
        obtain ⟨hoff, hnone, hcmds⟩ := h.free j hj
        have hne : j ≠ cmd.ringsetIdx := by
          rintro rfl
          rw [howner] at hnone
          cases hnone
        rw [hsat, hsame j hne]
        refine ⟨hoff, hnone, fun c hc => ?_⟩
        rcases hmem c hc with hold | rfl
        · exact hcmds c hold
        · exact hne.symm
      taken := by
        intro b j hb
        rw [hclients] at hb
        obtain ⟨hj, hoff, hcmds⟩ := h.taken b j hb
        have hne := hnot b j hb
        rw [hsat, hsame j hne]
        refine ⟨hj, hoff, fun c hc => ?_⟩
        rcases hmem c hc with hold | rfl
        · exact hcmds c hold
        · exact hne.symm
      handle := by
        intro b j halive hb
        rw [hclients] at halive hb
        have hj := h.handle b j halive hb
        by_cases hne : j = cmd.ringsetIdx
        · subst hne
          split at hself
          next hclose =>
              rw [hhandle hclose b halive] at hb
              cases hb
          next => rw [hself, ← hj, howner]
        · rw [hsame j hne]
          exact hj
      flushed := by
        intro b j hb
        rw [hclients] at hb
        have hold := h.flushed b j hb
        by_cases hne : j = cmd.ringsetIdx
        · subst hne
          rw [howner] at hold
          obtain hclient : cmd.client = b := by
            rcases hold with heq | ⟨hnone, -⟩
            · exact Option.some.inj heq
            · cases hnone
          rw [← hclient]
          split at hself
          next hclose =>
              refine .inr ⟨hself, ?_⟩
              rw [hitems, ← hclose]
              simp
          next => exact .inl hself
        · rw [hsame j hne, hitems]
          exact hold.imp_right fun hclose => ⟨hclose.1, List.mem_append_left _ hclose.2⟩
      issued := by
        intro c hc
        rcases hmem c hc with hold | rfl
        · have hissued := h.issued c hold
          by_cases hne : c.ringsetIdx = cmd.ringsetIdx
          · rw [hne, howner] at hissued
            rw [hne]
            have hclient : cmd.client = c.client := by
              rcases hissued with heq | hnone
              · exact Option.some.inj heq
              · cases hnone
            rw [← hclient]
            exact hcases
          · rw [hsame _ hne]
            exact hissued
        · exact hcases
      closing := by
        intro c hc hclose
        rcases hmem c hc with hold | rfl
        · have hnone := h.closing c hold hclose
          have hne : c.ringsetIdx ≠ cmd.ringsetIdx := by
            intro heq
            rw [heq, howner] at hnone
            cases hnone
          rw [hsame _ hne]
          exact hnone
        · rw [if_pos hclose] at hself
          exact hself
      last := by
        rw [hitems, List.pairwise_append]
        refine ⟨h.last, List.pairwise_singleton _ _, ?_⟩
        intro c hc c' hc' hclose heq
        obtain rfl := List.mem_singleton.mp hc'
        have hnone := h.closing c hc hclose
        rw [← heq, howner] at hnone
        cases hnone
      effects := by
        rw [heffects]
        exact h.effects }

/-! ### Taking an index -/

theorem takeFree (h : SlotInv s) {t : SlotState} {pc : ℕ → SlotPc}
    (htaken : ∀ j, takenIdx (pc j) = some j) (hflushed : ∀ j, flushedIdx (pc j) = none)
    (hstep : s.takeFree a pc = some t) : SlotInv t := by
  unfold SlotState.takeFree at hstep
  split at hstep
  next hidle =>
      split at hstep
      next => cases hstep
      next i ring hdequeue =>
          obtain rfl := Option.some.inj hstep
          have hitems := (Ring.dequeue_eq_some_iff _ _ _).mp hdequeue
          obtain ⟨hnot, hrest⟩ := List.nodup_cons.mp (hitems ▸ h.nodup)
          obtain ⟨hoff, hnone, hcmds⟩ := h.free i (by rw [hitems]; simp)
          have howned : ∀ j b, s.owner j = some b →
              Function.update s.owner i (some a) j = some b := by
            intro j b hj
            rw [Function.update_of_ne, hj]
            rintro rfl
            rw [hnone] at hj
            cases hj
          have hsame : ∀ j, j ≠ i → Function.update s.owner i (some a) j = s.owner j :=
            fun j hj => Function.update_of_ne hj _ _
          have hinv : SlotInv { s with
              freeConnectionsRing := ring
              owner := Function.update s.owner i (some a) } :=
            { nodup := hrest
              free := by
                intro j hj
                have hne : j ≠ i := fun heq => hnot (heq ▸ hj)
                obtain ⟨hj1, hj2, hj3⟩ := h.free j (by rw [hitems]; simp [hj])
                exact ⟨hj1, (hsame j hne).trans hj2, hj3⟩
              taken := by
                intro b j hb
                obtain ⟨hj1, hj2, hj3⟩ := h.taken b j hb
                exact ⟨howned j b hj1, hj2, hj3⟩
              handle := fun b j halive hb => howned j b (h.handle b j halive hb)
              flushed := by
                intro b j hb
                rcases h.flushed b j hb with hj | ⟨hj, hclose⟩
                · exact .inl (howned j b hj)
                · exact .inr ⟨(hsame j (hcmds _ hclose)).trans hj, hclose⟩
              issued := by
                intro c hc
                dsimp only
                rw [hsame _ (hcmds c hc)]
                exact h.issued c hc
              closing := by
                intro c hc hclose
                dsimp only
                rw [hsame _ (hcmds c hc)]
                exact h.closing c hc hclose
              last := h.last
              effects := h.effects }
          refine hinv.setClient ?_ ?_ ?_
          · intro j hj
            obtain rfl : i = j := Option.some.inj ((htaken i).symm.trans hj)
            exact ⟨Function.update_self _ _ _, hoff, hcmds⟩
          · intro j _ hj
            exact hinv.handle a j (by show alive (s.clients a).pc = true; rw [hidle]; rfl) hj
          · intro j hj
            rw [hflushed i] at hj
            cases hj
  next => cases hstep

/-! ### Closing -/

theorem queueClose (h : SlotInv s) (howner : s.owner i = some a)
    (hidle : takenIdx (s.clients a).pc = none)
    (hhandle : alive (s.clients a).pc = true → (s.clients a).handle i = false)
    {flushing done : SlotPc} (hflushing : flushedIdx flushing = some i ∧ takenIdx flushing = none ∧
      (alive flushing = true → alive (s.clients a).pc = true))
    (hdone : flushedIdx done = none ∧ takenIdx done = none ∧
      (alive done = true → alive (s.clients a).pc = true)) (gotCommand : Bool) :
    SlotInv (s.queueClose a i gotCommand flushing done) := by
  unfold SlotState.queueClose
  cases gotCommand with
  | false => exact h.setPc hdone.2.1 hdone.1 hdone.2.2
  | true =>
      rw [if_pos rfl]
      by_cases hroom : s.hasRoom = true
      · rw [if_pos hroom, if_pos howner]
        have hitems := items_enqueueCommandBuf s ⟨a, .close, i⟩
        rw [if_pos hroom] at hitems
        have hinv : SlotInv { s.enqueueCommandBuf ⟨a, .close, i⟩ with
            owner := Function.update s.owner i none } := by
          refine h.enqueue ⟨a, .close, i⟩ rfl rfl rfl rfl hitems howner ?_ ?_ ?_ ?_
          · intro b j hb heq
            have hb' := (h.taken b j hb).1
            rw [heq, howner] at hb'
            rw [← Option.some.inj hb', hidle] at hb
            cases hb
          · exact fun j hj => Function.update_of_ne hj _ _
          · exact Function.update_self _ _ _
          · intro _ b halive
            cases hb : (s.clients b).handle i with
            | false => rfl
            | true =>
                have hb' := h.handle b i halive hb
                rw [howner] at hb'
                obtain rfl := Option.some.inj hb'
                rw [hhandle halive] at hb
                cases hb
        refine hinv.setClient ?_ ?_ ?_
        · intro j hj
          rw [hflushing.2.1] at hj
          cases hj
        · intro j halive hj
          exact hinv.handle a j (hflushing.2.2 halive) hj
        · intro j hj
          obtain rfl : i = j := Option.some.inj (hflushing.1.symm.trans hj)
          refine .inr ⟨Function.update_self _ _ _, ?_⟩
          show _ ∈ (s.enqueueCommandBuf ⟨a, .close, i⟩).commandRing.items
          rw [hitems]
          simp
      · rw [if_neg hroom]
        refine h.setClient ?_ ?_ ?_
        · intro j hj
          rw [hflushing.2.1] at hj
          cases hj
        · intro j halive hj
          exact h.handle a j (hflushing.2.2 halive) hj
        · intro j hj
          obtain rfl : i = j := Option.some.inj (hflushing.1.symm.trans hj)
          exact .inl howner

/-- `ipaugenblick_close` of a connection that the client opened. -/
theorem close (h : SlotInv s) (hidle : (s.clients a).pc = .idle)
    (hhandle : (s.clients a).handle i = true) (gotCommand : Bool) :
    SlotInv ((s.setClient a
      { s.clients a with handle := Function.update (s.clients a).handle i false }).queueClose a i
        gotCommand (.flushing i) .idle) := by
  have halive : alive (s.clients a).pc = true := by
    rw [hidle]
    rfl
  have howner := h.handle a i halive hhandle
  have hself := s.clients_setClient_self a
    { s.clients a with handle := Function.update (s.clients a).handle i false }
  have hinv : SlotInv (s.setClient a
      { s.clients a with handle := Function.update (s.clients a).handle i false }) := by
    refine h.setClient (fun j hj => h.taken a j hj) ?_ fun j hj => h.flushed a j hj
    intro j _ hj
    by_cases hne : j = i
    · rw [hne]
      exact howner
    · have hold : (s.clients a).handle j = true := by
        rw [← Function.update_of_ne hne false (s.clients a).handle]
        exact hj
      exact h.handle a j halive hold
  refine hinv.queueClose howner ?_ ?_ ⟨rfl, rfl, ?_⟩ ⟨rfl, rfl, ?_⟩ gotCommand
  · rw [hself, hidle]
    rfl
  · intro _
    rw [hself]
    exact Function.update_self _ _ _
  · intro _
    rw [hself]
    exact halive
  · intro _
    rw [hself]
    exact halive

/-! ### The service -/

theorem setSatelite (h : SlotInv s) (hfree : i ∉ s.freeConnectionsRing.items)
    (htaken : ∀ b, takenIdx (s.clients b).pc ≠ some i) :
    SlotInv { s with satelite := Function.update s.satelite i true } := by
  refine { h with free := ?_, taken := ?_ }
  · intro j hj
    have hne : j ≠ i := fun heq => hfree (heq ▸ hj)
    obtain ⟨hoff, hrest⟩ := h.free j hj
    exact ⟨(Function.update_of_ne hne _ _).trans hoff, hrest⟩
  · intro b j hb
    have hne : j ≠ i := fun heq => htaken b (heq ▸ hb)
    obtain ⟨howner, hoff, hcmds⟩ := h.taken b j hb
    exact ⟨howner, (Function.update_of_ne hne _ _).trans hoff, hcmds⟩

/-- `ipaugenblick_free_socket` of an index that nobody has anything to do with. -/
theorem freeSocket (h : SlotInv s) (hfree : i ∉ s.freeConnectionsRing.items)
    (howner : s.owner i = none) (hcmds : ∀ c ∈ s.commandRing.items, c.ringsetIdx ≠ i) :
    SlotInv { s with
      satelite := Function.update s.satelite i false
      freeConnectionsRing := (s.freeConnectionsRing.enqueueBulk connectionPoolSize [i]).2 } := by
  have hitems := Ring.items_enqueueBulk connectionPoolSize s.freeConnectionsRing [i]
  have hoff : ∀ j, s.satelite j = false → Function.update s.satelite i false j = false := by
    intro j hj
    by_cases hne : j = i
    · rw [hne, Function.update_self]
    · rw [Function.update_of_ne hne, hj]
  have hmem : ∀ j ∈ (s.freeConnectionsRing.enqueueBulk connectionPoolSize [i]).2.items,
      j ∈ s.freeConnectionsRing.items ∨ j = i := by
    intro j hj
    rw [hitems] at hj
    split at hj
    · exact .inl hj
    · simpa using hj
  refine { h with nodup := ?_, free := ?_, taken := ?_ }
  · show (s.freeConnectionsRing.enqueueBulk connectionPoolSize [i]).2.items.Nodup
    rw [hitems]
    split
    · exact h.nodup
    · rw [List.nodup_append]
      refine ⟨h.nodup, List.nodup_singleton i, ?_⟩
      intro j hj k hk heq
      rw [List.mem_singleton] at hk
      exact hfree (hk ▸ heq ▸ hj)
  · intro j hj
    rcases hmem j hj with hold | rfl
    · obtain ⟨hj1, hj2⟩ := h.free j hold
      exact ⟨hoff j hj1, hj2⟩
    · exact ⟨Function.update_self _ _ _, howner, hcmds⟩
  · intro b j hb
    obtain ⟨hj1, hj2, hj3⟩ := h.taken b j hb
    exact ⟨hj1, hoff j hj2, hj3⟩

theorem processCommand (h : SlotInv s) {cmd : SlotCommand}
    {ring : Ring SlotCommand commandRingCapacity} (created : Bool)
    (hitems : s.commandRing.items = cmd :: ring.items)
    (hdone : cmd.kind = .close → flushedIdx (s.clients cmd.client).pc ≠ some cmd.ringsetIdx) :
    SlotInv (SlotState.processCommand { s with commandRing := ring } created cmd) := by
  have hhead : cmd ∈ s.commandRing.items := by
    rw [hitems]
    simp
  have htail : ∀ c ∈ ring.items, c ∈ s.commandRing.items := by
    intro c hc
    rw [hitems]
    exact List.mem_cons_of_mem _ hc
  have hlast := h.last
  rw [hitems, List.pairwise_cons] at hlast
  have hfree : cmd.ringsetIdx ∉ s.freeConnectionsRing.items := fun hmem =>
    (h.free _ hmem).2.2 cmd hhead rfl
  have htaken : ∀ b, takenIdx (s.clients b).pc ≠ some cmd.ringsetIdx := fun b hb =>
    (h.taken b _ hb).2.2 cmd hhead rfl
  have hpopped : SlotInv { s with commandRing := ring } :=
    { nodup := h.nodup
      free := by
        intro j hj
        obtain ⟨hj1, hj2, hj3⟩ := h.free j hj
        exact ⟨hj1, hj2, fun c hc => hj3 c (htail c hc)⟩
      taken := by
        intro b j hb
        obtain ⟨hj1, hj2, hj3⟩ := h.taken b j hb
        exact ⟨hj1, hj2, fun c hc => hj3 c (htail c hc)⟩
      handle := h.handle
      flushed := by
        intro b j hb
        rcases h.flushed b j hb with howner | ⟨hnone, hclose⟩
        · exact .inl howner
        · rw [hitems, List.mem_cons] at hclose
          rcases hclose with rfl | hclose
          · exact absurd hb (hdone rfl)
          · exact .inr ⟨hnone, hclose⟩
      issued := fun c hc => h.issued c (htail c hc)
      closing := fun c hc => h.closing c (htail c hc)
      last := hlast.2
      effects := h.effects }
  have hinv : SlotInv (SlotState.effect { s with commandRing := ring } cmd.client cmd.ringsetIdx) :=
    hpopped.effect (h.issued cmd hhead).symm
  unfold SlotState.processCommand
  dsimp only
  cases hkind : cmd.kind with
  | openSocket =>
      dsimp only
      split
      · exact hinv.setSatelite hfree htaken
      · exact hinv
  | setSocketRing => exact hinv.setSatelite hfree htaken
  | close =>
      dsimp only
      split
      · exact hinv.freeSocket hfree (h.closing cmd hhead hkind) fun c hc => hlast.1 c hc hkind
      · exact hinv
  | other => exact hinv

/-! ### Opening -/

/-- The client asks for a socket on the index in its hand and returns it. -/
theorem ask (h : SlotInv s) {kind : SlotCommandKind} (hkind : kind ≠ .close)
    (hpc : takenIdx (s.clients a).pc = some i) (halive : alive (s.clients a).pc = true)
    (hroom : s.hasRoom = true) :
    SlotInv ((s.enqueueCommandBuf ⟨a, kind, i⟩).setClient a
      { pc := .idle
        descr := Function.update (s.clients a).descr i true
        handle := Function.update (s.clients a).handle i true }) := by
  obtain ⟨howner, -, -⟩ := h.taken a i hpc
  have hclient : SlotInv (s.setClient a
      { pc := .idle
        descr := Function.update (s.clients a).descr i true
        handle := Function.update (s.clients a).handle i true }) := by
    refine h.setClient (fun j hj => nomatch hj) ?_ (fun j hj => nomatch hj)
    intro j _ hj
    by_cases hne : j = i
    · rw [hne]
      exact howner
    · have hold : (s.clients a).handle j = true := by
        rw [← Function.update_of_ne hne true (s.clients a).handle]
        exact hj
      exact h.handle a j halive hold
  refine hclient.enqueue ⟨a, kind, i⟩ rfl rfl rfl rfl ?_ howner ?_ (fun _ _ => rfl) ?_ ?_
  · have hitems := items_enqueueCommandBuf s ⟨a, kind, i⟩
    rw [if_pos hroom] at hitems
    exact hitems
  · intro b j hb heq
    have hb' : s.owner j = some b := (hclient.taken b j hb).1
    rw [heq, howner] at hb'
    rw [← Option.some.inj hb'] at hb
    simp [SlotState.setClient, takenIdx] at hb
  · rw [if_neg hkind]
    exact howner
  · exact fun hclose => absurd hclose hkind

/-- The client returns without having asked. -/
theorem giveUp (h : SlotInv s) {descr : ℕ → Bool} (halive : alive (s.clients a).pc = true) :
    SlotInv (s.setClient a { s.clients a with pc := .idle, descr }) :=
  h.setClient (fun _ hj => nomatch hj) (fun j _ hj => h.handle a j halive hj)
    (fun _ hj => nomatch hj)

end SlotInv

/-! ## Every run -/

theorem slotInv_step {s t : SlotState} {a : SlotStep} (h : SlotInv s) (hok : slotOk s a)
    (hstep : slotMachine.step s a = some t) : SlotInv t := by
  cases a with
  | openDequeue a =>
      exact h.takeFree (fun _ => rfl) (fun _ => rfl) hstep
  | openEnqueue a gotCommand =>
      simp only [slotMachine] at hstep
      split at hstep
      next i hpc =>
          split at hstep
          next hboth =>
              obtain rfl := Option.some.inj hstep
              rw [Bool.and_eq_true] at hboth
              exact h.ask (by decide) (by rw [hpc]; rfl) (by rw [hpc]; rfl) hboth.2
          next =>
              obtain rfl := Option.some.inj hstep
              exact h.setPc rfl rfl fun _ => by rw [hpc]; rfl
      next => cases hstep
  | acceptDequeue a =>
      exact h.takeFree (fun _ => rfl) (fun _ => rfl) hstep
  | acceptEnqueue a =>
      simp only [slotMachine] at hstep
      split at hstep
      next i hpc =>
          split at hstep
          next hroom =>
              obtain rfl := Option.some.inj hstep
              exact h.ask (by decide) (by rw [hpc]; rfl) (by rw [hpc]; rfl) hroom
          next =>
              obtain rfl := Option.some.inj hstep
              exact h.giveUp (by rw [hpc]; rfl)
      next => cases hstep
  | close a i gotCommand =>
      simp only [slotMachine] at hstep
      split at hstep
      next hguard =>
          obtain rfl := Option.some.inj hstep
          exact h.close hguard.1 hguard.2 gotCommand
      next => cases hstep
  | flush a more =>
      simp only [slotMachine] at hstep
      split at hstep
      next i hpc =>
          have heffect : SlotInv (s.effect a i) := h.effect_flushed (by rw [hpc]; rfl)
          split at hstep
          next =>
              obtain rfl := Option.some.inj hstep
              exact heffect
          next =>
              obtain rfl := Option.some.inj hstep
              refine heffect.setPc rfl rfl fun _ => ?_
              show alive (s.clients a).pc = true
              rw [hpc]
              rfl
      next i hpc =>
          have heffect : SlotInv (s.effect a i) := h.effect_flushed (by rw [hpc]; rfl)
          split at hstep
          next =>
              obtain rfl := Option.some.inj hstep
              exact heffect
          next =>
              obtain rfl := Option.some.inj hstep
              exact heffect.setPc rfl rfl (nomatch ·)
      next => cases hstep
  | access a i =>
      simp only [slotMachine] at hstep
      split at hstep
      next hidle =>
          obtain rfl := Option.some.inj hstep
          exact h.effect (.inr (h.handle a i (by rw [hidle]; rfl) hok))
      next => cases hstep
  | command a i =>
      simp only [slotMachine] at hstep
      split at hstep
      next hidle =>
          obtain rfl := Option.some.inj hstep
          have howner := h.handle a i (by rw [hidle]; rfl) hok
          by_cases hroom : s.hasRoom = true
          · have hitems := SlotInv.items_enqueueCommandBuf s ⟨a, .other, i⟩
            rw [if_pos hroom] at hitems
            refine h.enqueue ⟨a, .other, i⟩ rfl rfl rfl rfl hitems howner ?_ (fun _ _ => rfl)
              howner fun hclose => nomatch hclose
            intro b j hb heq
            have hb' := (h.taken b j hb).1
            rw [heq, howner] at hb'
            rw [← Option.some.inj hb', hidle] at hb
            cases hb
          · have hsame : s.enqueueCommandBuf ⟨a, .other, i⟩ = s := by
              have hitems := SlotInv.items_enqueueCommandBuf s ⟨a, .other, i⟩
              rw [if_neg hroom] at hitems
              have hring := Lib.Ring.ext hitems
              unfold SlotState.enqueueCommandBuf at hring ⊢
              dsimp only at hring
              rw [hring]
            rw [hsame]
            exact h
      next => cases hstep
  | signal a =>
      simp only [slotMachine] at hstep
      split at hstep
      next => cases hstep
      next =>
          obtain rfl := Option.some.inj hstep
          exact h.setPc rfl rfl (nomatch ·)
  | sigHandler a gotCommand =>
      simp only [slotMachine] at hstep
      split at hstep
      next i hpc =>
          split at hstep
          next =>
              obtain rfl := Option.some.inj hstep
              exact h.setPc rfl rfl (nomatch ·)
          next =>
              split at hstep
              next hdescr =>
                  obtain rfl := Option.some.inj hstep
                  have hdead : alive (s.clients a).pc ≠ true := by
                    simp [hpc, alive]
                  have howner : s.owner i = some a := by
                    have hown : closesOwn s a (s.clients a).pc := hok
                    rw [hpc] at hown
                    exact hown hdescr
                  exact h.queueClose howner (by rw [hpc]; rfl)
                    (fun halive => absurd halive hdead)
                    ⟨rfl, rfl, fun halive => by simp [alive] at halive⟩
                    ⟨rfl, rfl, fun halive => by simp [alive] at halive⟩ gotCommand
              next =>
                  obtain rfl := Option.some.inj hstep
                  exact h.setPc rfl rfl (nomatch ·)
      next => cases hstep
  | processCommands created =>
      simp only [slotMachine] at hstep
      split at hstep
      next => cases hstep
      next cmd ring hdequeue =>
          obtain rfl := Option.some.inj hstep
          have hitems := (Ring.dequeue_eq_some_iff _ _ _).mp hdequeue
          have hdone : flushDone s s.commandRing.items := hok
          rw [hitems] at hdone
          exact h.processCommand created hitems hdone

theorem initialConnections_nodup : initialConnections.items.Nodup := by
  unfold initialConnections Ring.enqueueBurst
  dsimp only [Ring.empty]
  rw [List.nil_append]
  exact (List.take_sublist _ _).nodup List.nodup_range

theorem slotInv_init : SlotInv slotMachine.init where
  nodup := initialConnections_nodup
  free := fun _ _ => ⟨rfl, rfl, fun _ hc => nomatch hc⟩
  taken := fun _ _ hpc => nomatch hpc
  handle := fun _ _ _ hhandle => nomatch hhandle
  flushed := fun _ _ hpc => nomatch hpc
  issued := fun _ hc => nomatch hc
  closing := fun _ hc => nomatch hc
  last := .nil
  effects := fun _ he => nomatch he

/-- **Slot ownership.**  In every run that keeps clear of the two faults: an index is
in the ring at most once and never while it belongs to a client, and whatever a
client or its commands do to a connection, they do to one of its own or to nobody's. -/
theorem slots_belong_to_one_client {s : SlotState}
    (hreach : slotMachine.ReachableWhere slotOk s) :
    s.freeConnectionsRing.items.Nodup ∧
      (∀ i ∈ s.freeConnectionsRing.items, s.owner i = none) ∧
      ∀ e ∈ s.effects, e.owner = none ∨ e.owner = some e.client := by
  have hinv : SlotInv s := by
    refine slotMachine.invariant_of_step slotInv_init ?_ hreach
    intro s a t h hok hstep
    exact slotInv_step h hok hstep
  exact ⟨hinv.nodup, fun i hi => (hinv.free i hi).2.1, hinv.effects⟩

/-- Client 0 opens a connection, uses and closes it; client 1 is signalled with one
open. -/
theorem slots_belong_to_one_client_two_clients :
    ∃ s, slotMachine.ReachableWhere slotOk s ∧ s.effects.length = 6 ∧
      s.freeConnectionsRing.items.Nodup ∧
      (∀ i ∈ s.freeConnectionsRing.items, s.owner i = none) ∧
      ∀ e ∈ s.effects, e.owner = none ∨ e.owner = some e.client := by
  have hrun : ((slotMachine.restrict slotOk).run
      [.openDequeue 0, .openEnqueue 0 true, .openDequeue 1, .processCommands true,
        .openEnqueue 1 true, .access 0 0, .close 0 0 true, .processCommands true, .flush 0 false,
        .processCommands true, .signal 1, .sigHandler 1 true, .sigHandler 1 true,
        .flush 1 false]).map (fun s => s.effects.length) = some 6 := by decide +kernel
  obtain ⟨s, hs, hlength⟩ := Option.map_eq_some_iff.mp hrun
  have hreach := slotMachine.reachableWhere_of_run hs
  exact ⟨s, hreach, hlength, slots_belong_to_one_client hreach⟩

/-- Client 0 closes connection 0, the other free indices are used up, client 1 gets
connection 0, and a signal makes client 0 close and flush it again. -/
theorem signalled_client_flushes_foreign_connection :
    ∃ s, slotMachine.run ([.openDequeue 0, .openEnqueue 0 true, .processCommands true] ++
        (List.replicate 2046 [.openDequeue 2, .openEnqueue 2 false]).flatten ++
        [.close 0 0 true, .flush 0 false, .processCommands true, .openDequeue 1,
          .openEnqueue 1 true, .processCommands true, .signal 0, .sigHandler 0 true,
          .flush 0 false]) = some s ∧
      ⟨0, 0, some 1⟩ ∈ s.effects := by
  have hrun : (slotMachine.run ([.openDequeue 0, .openEnqueue 0 true, .processCommands true] ++
      (List.replicate 2046 [.openDequeue 2, .openEnqueue 2 false]).flatten ++
      [.close 0 0 true, .flush 0 false, .processCommands true, .openDequeue 1,
        .openEnqueue 1 true, .processCommands true, .signal 0, .sigHandler 0 true,
        .flush 0 false])).map (fun s => s.effects.head?) = some (some ⟨0, 0, some 1⟩) := by
    decide +kernel
  obtain ⟨s, hs, heffect⟩ := Option.map_eq_some_iff.mp hrun
  exact ⟨s, hs, List.mem_of_mem_head? heffect⟩

end IpAugenblick
