/-
# Asking for transmit space

Before it sends, a client asks how many buffers it may send.  The answer is the smallest of
three numbers that belong to different parties: the room in `tx_ring`, the free buffers of the
shared pool, and the byte credit `tx_space` divided by 1448.  When the answer is small the call
clears `write_ready_to_app` and queues a TX_POOL_EMPTY; the service puts the socket in its
buffers-available list and marks it writable from the main loop.

The two calls, the sends and `ipaugenblick_mark_writable` are cut into their accesses to the
shared memory.
-/

import IpAugenblick.Tx.Slot

namespace IpAugenblick

open Lib

inductive SpaceCall
  | /-- `ipaugenblick_get_socket_tx_space`. -/
    shared
  | /-- `ipaugenblick_get_socket_tx_space_own_buffer`. -/
    ownBuffer
  deriving DecidableEq

inductive SpaceClientPc (α : Type)
  | /-- Between two calls. -/
    idle
  | /-- `ipaugenblick_get_socket_tx_space`, before the pool is counted. -/
    bufs (ringSpace : ℕ)
  | /-- Before `tx_space` is read. -/
    credit (call : SpaceCall) (rc : ℕ)
  | /-- Before `write_ready_to_app` is cleared. -/
    clear (rc : ℤ)
  | /-- `ipaugenblick_notify_empty_tx_buffers`, before a command buffer is allocated. -/
    alloc (rc : ℤ)
  | /-- Inside it, with a command buffer in hand. -/
    post (rc : ℤ)
  | /-- Inside a send, the flag cleared. -/
    send (mbufs : List α) (length : BitVec 32)
  | /-- Inside a send that succeeded, before `tx_space` is taken down. -/
    debit (length : BitVec 32)
  | /-- Inside `ipaugenblick_select`, the ready ring counted. -/
    select (readyCount : ℕ)

inductive SpaceServicePc
  | /-- Outside `ipaugenblick_mark_writable`. -/
    idle
  | /-- The flag was clear; before the entry is posted.  `fromList` in the main loop. -/
    post (fromList : Bool)
  deriving DecidableEq

/-- The sender, and what it was told. -/
structure SpaceSender (α : Type) where
  pc : SpaceClientPc α
  /-- What the last of the two calls returned. -/
  answer : Option ℤ
  /-- The buffers of the sends since. -/
  sent : ℕ
  /-- Since then a select took a WRITABLE entry of the connection. -/
  woken : Bool
  /-- A send was refused that an answer had promised. -/
  refused : Bool

/-- One connection with what the two calls look at, its selector's ready ring, the commands and
the service. -/
structure SpaceSlot (α : Type) where
  txRing : Ring α dataRingCapacity
  txSpace : BitVec 32
  /-- The free buffers of the pool. -/
  bufs : ℕ
  writeReadyToApp : Bool
  ready : Ring ReadyEntry readyCapacity
  commandRing : Ring Command commandRingCapacity
  freeCommands : ℕ
  /-- `parent_idx` is the selector. -/
  selected : Bool
  /-- `buffers_available_notification_queue_present`. -/
  listed : Bool
  service : SpaceServicePc
  sender : SpaceSender α

inductive SpaceClientStep (α : Type)
  | /-- `ipaugenblick_get_socket_tx_space`: `tx_ring` is counted. -/
    getSocketTxSpace
  | /-- The pool is counted. -/
    readBufs
  | /-- `ipaugenblick_get_socket_tx_space_own_buffer`: `tx_ring` is counted. -/
    getSocketTxSpaceOwnBuffer
  | /-- `tx_space` is read. -/
    readCredit
  | /-- `write_ready_to_app` is cleared. -/
    clear
  | /-- `ipaugenblick_notify_empty_tx_buffers`: a command buffer is allocated. -/
    alloc
  | /-- `ipaugenblick_notify_empty_tx_buffers`: TX_POOL_EMPTY is queued, and the return. -/
    post
  | /-- `ipaugenblick_send` of one buffer, or one of the bulk calls: the flag is cleared. -/
    send (mbufs : List α) (length : BitVec 32)
  | /-- The enqueue. -/
    sendEnqueue
  | /-- `tx_space` is taken down by the length. -/
    sendDebit
  | /-- `ipaugenblick_select`: the ready ring is counted. -/
    select
  | /-- `ipaugenblick_select`: the counted entries are taken. -/
    selectTake

inductive SpaceServiceStep
  | /-- Up to `n` buffers are taken from `tx_ring`. -/
    drain (n : ℕ)
  | /-- `user_transmitted_callback`: `tx_space` grows by the `data_len` of a buffer. -/
    credit (dataLen : BitVec 16)
  | /-- OPEN_SOCKET or SET_SOCKET_RING: `tx_space` is set. -/
    setTxSpace (wspace : BitVec 32)
  | /-- SET_SOCKET_SELECT: the connection gets its selector. -/
    setSocketSelect
  | /-- `process_commands` takes another command; `wspace` is what `sk_stream_wspace` returns. -/
    takeCommand (wspace : BitVec 32)
  | /-- `ipaugenblick_mark_writable`, from anywhere but the main loop. -/
    mark
  | /-- The main loop takes up the connection's socket.  A mark that finds the flag set returns
    without a value: `kept` when that is not 0. -/
    notify (wspace : BitVec 32) (kept : Bool)
  | /-- `ipaugenblick_mark_writable`: the entry is posted. -/
    post

inductive SpaceOtherStep
  | /-- The pool has `n` free buffers. -/
    pool (n : ℕ)
  | /-- A command buffer is taken. -/
    take
  | /-- A command buffer is freed. -/
    free
  | /-- A command is queued. -/
    post (cmd : Command)
  | /-- An entry is posted to the selector. -/
    ready (e : ReadyEntry)

/-- One access of the sender, the service or somebody else. -/
inductive SpaceStep (α : Type)
  | client (a : SpaceClientStep α)
  | service (a : SpaceServiceStep)
  | other (a : SpaceOtherStep)

/-- The room in the ring and the free buffers. -/
def limitedByBufs (ringSpace freeBufsCount : ℕ) : ℕ :=
  if ringSpace > freeBufsCount then (if freeBufsCount > 0 then freeBufsCount else 0)
  else ringSpace

/-- `tx_space` in buffers: the division truncates. -/
def bufferCredit (txSpace : BitVec 32) : ℤ := txSpace.toInt.tdiv 1448

/-- The smaller of `rc` and the credit. -/
def limitedByCredit (rc : ℕ) (txSpace : BitVec 32) : ℤ :=
  if rc > bufferCredit txSpace then bufferCredit txSpace else rc

/-- The call clears the flag and asks for a wake-up. -/
def SpaceCall.notifies (rc : ℤ) : SpaceCall → Bool
  | .shared => decide (rc < 10)
  | .ownBuffer => decide (rc = 0)

section Machine

variable {α : Type} (conn : ℕ) (type : SockType)

/-- The sender goes on to `pc`. -/
def SpaceSlot.goto (s : SpaceSlot α) (pc : SpaceClientPc α) : SpaceSlot α :=
  { s with sender := { s.sender with pc } }

/-- One of the two calls begins. -/
def SpaceSlot.ask (s : SpaceSlot α) (pc : SpaceClientPc α) : SpaceSlot α :=
  { s with sender := { s.sender with pc, answer := none } }

/-- It returns `rc`. -/
def SpaceSlot.answered (s : SpaceSlot α) (rc : ℤ) : SpaceSlot α :=
  { s with sender := { s.sender with pc := .idle, answer := some rc, sent := 0, woken := false } }

/-- The next send is one of those the last answer promised. -/
def SpaceSender.promised (c : SpaceSender α) : Bool :=
  match c.answer with
  | some n => decide ((c.sent : ℤ) < n)
  | none => false

def SpaceSlot.clientStep (s : SpaceSlot α) : SpaceClientStep α → Option (SpaceSlot α)
  | .getSocketTxSpace =>
      match s.sender.pc with
      | .idle => some (s.ask (.bufs s.txRing.freeCount))
      | _ => none
  | .readBufs =>
      match s.sender.pc with
      | .bufs ringSpace => some (s.goto (.credit .shared (limitedByBufs ringSpace s.bufs)))
      | _ => none
  | .getSocketTxSpaceOwnBuffer =>
      match s.sender.pc with
      | .idle => some (s.ask (.credit .ownBuffer s.txRing.freeCount))
      | _ => none
  | .readCredit =>
      match s.sender.pc with
      | .credit call rc =>
          if call.notifies (limitedByCredit rc s.txSpace) then
            some (s.goto (.clear (limitedByCredit rc s.txSpace)))
          else some (s.answered (limitedByCredit rc s.txSpace))
      | _ => none
  | .clear =>
      match s.sender.pc with
      | .clear rc => some { s.goto (.alloc rc) with writeReadyToApp := false }
      | _ => none
  | .alloc =>
      match s.sender.pc with
      | .alloc rc =>
          if s.freeCommands = 0 then some (s.answered rc)
          else some { s.goto (.post rc) with freeCommands := s.freeCommands - 1 }
      | _ => none
  | .post =>
      match s.sender.pc with
      | .post rc =>
          match s.commandRing.enqueueBulk (commandRingCapacity + 1) [.txPoolEmpty conn] with
          | (.nobufs, _) => some { s.answered rc with freeCommands := s.freeCommands + 1 }
          | (_, commandRing) => some { s.answered rc with commandRing }
      | _ => none
  | .send mbufs length =>
      match s.sender.pc with
      | .idle => some { s with
          writeReadyToApp := false
          sender := { s.sender with pc := .send mbufs length } }
      | _ => none
  | .sendEnqueue =>
      match s.sender.pc with
      | .send mbufs length =>
          match s.txRing.enqueueBulk 1 mbufs with
          | (.nobufs, _) => some { s with
              sender := { s.sender with
                pc := .idle
                sent := s.sender.sent + mbufs.length
                -- the promise is about sends of one buffer
                refused := s.sender.refused || (decide (mbufs.length = 1) && s.sender.promised) } }
          | (_, txRing) => some { s with
              txRing
              sender := { s.sender with
                pc := .debit length
                sent := s.sender.sent + mbufs.length } }
      | _ => none
  | .sendDebit =>
      match s.sender.pc with
      | .debit length => some { s.goto .idle with txSpace := s.txSpace - length }
      | _ => none
  | .select =>
      match s.sender.pc with
      | .idle => some (s.goto (.select s.ready.count))
      | _ => none
  | .selectTake =>
      match s.sender.pc with
      | .select readyCount =>
          if s.ready.count < readyCount then some (s.goto .idle)
          else
            let taken := s.ready.dequeueBurst readyCount
            some { s with
              ready := taken.2
              sender := { s.sender with
                pc := .idle
                woken := s.sender.woken || decide (writableEntry conn ∈ taken.1) } }
      | _ => none

/-- The IPAUGENBLICK_SOCKET_TX_POOL_EMPTY_COMMAND case of `process_commands`. -/
def SpaceSlot.txPoolEmpty (s : SpaceSlot α) (wspace : BitVec 32) : SpaceSlot α :=
  if s.listed then s
  else { s with
    listed := true
    txSpace := if type = .dgram then wspace else s.txSpace }

def SpaceSlot.serviceStep (s : SpaceSlot α) : SpaceServiceStep → Option (SpaceSlot α)
  | .drain n =>
      if s.service = .idle then some { s with txRing := (s.txRing.dequeueBurst n).2 } else none
  | .credit dataLen =>
      if s.service = .idle then some { s with txSpace := s.txSpace + dataLen.setWidth 32 }
      else none
  | .setTxSpace wspace =>
      if s.service = .idle then some { s with txSpace := wspace } else none
  | .setSocketSelect => if s.service = .idle then some { s with selected := true } else none
  | .takeCommand wspace =>
      if s.service = .idle then
        match s.commandRing.dequeue with
        | some (cmd, commandRing) =>
            let s := { s with commandRing, freeCommands := s.freeCommands + 1 }
            if cmd = .txPoolEmpty conn then some (s.txPoolEmpty type wspace) else some s
        | none => none
      else none
  | .mark =>
      if s.service = .idle then
        if !s.selected || s.writeReadyToApp then some s
        else some { s with writeReadyToApp := true, service := .post false }
      else none
  | .notify wspace kept =>
      if s.service = .idle ∧ s.listed ∧ 0 < s.bufs then
        let s := { s with txSpace := if type = .dgram then wspace else s.txSpace }
        if !s.selected then some s
        else if s.writeReadyToApp then some { s with listed := kept }
        else some { s with writeReadyToApp := true, service := .post true }
      else none
  | .post =>
      match s.service with
      | .idle => none
      | .post fromList =>
          match s.ready.enqueueBulk (readyCapacity + 1) [writableEntry conn] with
          -- the main loop leaves the socket in its list
          | (.nobufs, _) => some { s with service := .idle }
          | (_, ready) =>
              some { s with ready, service := .idle, listed := s.listed && !fromList }

def SpaceSlot.otherStep (s : SpaceSlot α) : SpaceOtherStep → Option (SpaceSlot α)
  | .pool n => some { s with bufs := n }
  | .take =>
      if s.freeCommands = 0 then none else some { s with freeCommands := s.freeCommands - 1 }
  | .free => some { s with freeCommands := s.freeCommands + 1 }
  | .post cmd => some { s with
      commandRing := (s.commandRing.enqueueBulk (commandRingCapacity + 1) [cmd]).2 }
  | .ready e => some { s with ready := (s.ready.enqueueBulk (readyCapacity + 1) [e]).2 }

/-- The sender and the service of one connection, from any contents of the rings.  An answer is
put together from several readings, and everything may change between two of them. -/
def spaceMachine (txRing : Ring α dataRingCapacity) (ready : Ring ReadyEntry readyCapacity)
    (commandRing : Ring Command commandRingCapacity) (freeCommands bufs : ℕ)
    (txSpace : BitVec 32) (selected : Bool) : Machine (SpaceSlot α) (SpaceStep α) where
  init :=
    { txRing, txSpace, bufs, ready, commandRing, freeCommands, selected
      writeReadyToApp := false, listed := false, service := .idle
      sender := { pc := .idle, answer := none, sent := 0, woken := false, refused := false } }
  step s
    | .client a => s.clientStep conn a
    | .service a => s.serviceStep conn type a
    | .other a => s.otherStep a

end Machine

end IpAugenblick
