/-
# A connection's transmit side as shared memory

The client fills `tx_ring` and kicks the service; the service empties the ring and marks
the connection writable.  Two flags keep the notifications down: `write_done_from_app` is
set by a kick and cleared by `ipaugenblick_tx_buf_count`, so that only the first kick sends
a TX_KICK; `write_ready_to_app` is cleared by a send and set by `ipaugenblick_mark_writable`,
so that only the first mark posts to the selector.

The calls of the client and `user_on_transmission_opportunity` are cut into their accesses
to the shared memory.  Other clients take, queue and free commands and post to the selector.
-/

import IpAugenblick.Rx.Wakeup
import IpAugenblick.Service.State

namespace IpAugenblick

open Lib

inductive TxClientPc (α : Type)
  | /-- Between two calls. -/
    idle
  | /-- Inside a send, sendto or one of the bulk calls; `write_ready_to_app` was cleared. -/
    send (mbufs : List α)
  | /-- Inside `ipaugenblick_socket_kick`, which has set `write_done_from_app`. -/
    kick
  | /-- Inside it, with a command buffer in hand. -/
    kickPost
  | /-- Inside `ipaugenblick_select`, the ready ring counted. -/
    select (readyCount : ℕ)

/-- Where the service is in `user_on_transmission_opportunity`. -/
inductive TxServicePc
  | /-- Outside. -/
    idle
  | /-- Before `ipaugenblick_tx_buf_count`. -/
    count
  | /-- Stream: in the loop of `kernel_sendpage`. -/
    sendpage
  | /-- Stream: before the second `ipaugenblick_tx_buf_count`. -/
    recount
  | /-- Datagram: before the burst, with the counted entries. -/
    burst (ringEntries : ℕ)
  | /-- Datagram: in the loop of `udp_sendmsg`. -/
    sendmsg
  | /-- Before `write_ready_to_app` is tested and set. -/
    mark
  | /-- The flag was clear; before the entry is posted. -/
    post
  deriving DecidableEq

/-- The transmit side of one connection, its selector's ready ring and the commands.  The fields
behind `command` are a record that the code does not keep. -/
structure TxSlot (α : Type) where
  txRing : Ring α dataRingCapacity
  writeReadyToApp : Bool
  writeDoneFromApp : Bool
  ready : Ring ReadyEntry readyCapacity
  commandRing : Ring Command commandRingCapacity
  freeCommands : ℕ
  client : TxClientPc α
  service : TxServicePc
  /-- The service is processing a TX_KICK of the connection. -/
  command : Bool
  /-- A buffer was enqueued since the last `ipaugenblick_tx_buf_count`. -/
  enqueued : Bool
  /-- A kick returned 0 after such a buffer was enqueued. -/
  kicked : Bool
  /-- A send found no room in `tx_ring`. -/
  failed : Bool
  /-- Since the last send the service took a buffer from `tx_ring`. -/
  removed : Bool
  /-- Since then it finished a transmission opportunity. -/
  drained : Bool
  /-- Since the last send a select took a WRITABLE entry of the connection. -/
  seen : Bool

/-- What the stack answers the service. -/
structure TxAnswer where
  /-- The buffers that the next `kernel_sendpage` takes from `tx_ring`, or `none` when the
  loop ends. -/
  sendpage : Option ℕ := none
  /-- A `udp_sendmsg` returned 0 or less. -/
  exhausted : Bool := false

/-- One access of the client, the service or somebody else. -/
inductive TxSlotStep (α : Type)
  | /-- `ipaugenblick_send`, `_send_bulk`, `_sendto` or `_sendto_bulk`: the flag is cleared. -/
    send (mbufs : List α)
  | /-- The enqueue, and the return. -/
    sendEnqueue
  | /-- `ipaugenblick_socket_kick`: the flag is tested and set. -/
    kick
  | /-- `ipaugenblick_socket_kick`: a command buffer is allocated. -/
    kickAlloc
  | /-- `ipaugenblick_socket_kick`: TX_KICK is queued, and the return. -/
    kickPost
  | /-- `ipaugenblick_select`: the ready ring is counted. -/
    select
  | /-- `ipaugenblick_select`: the counted entries are taken. -/
    selectTake
  | /-- Somebody else takes a command buffer. -/
    otherTake
  | /-- Somebody else queues another command. -/
    otherPost (cmd : Command)
  | /-- Somebody else frees a command buffer. -/
    otherFree
  | /-- Somebody posts another entry to the selector. -/
    otherReady (e : ReadyEntry)
  | /-- `process_commands` takes a command. -/
    takeCommand
  | /-- The socket is in the write list of `app_glue.c`. -/
    opportunity
  | /-- The next access of `user_on_transmission_opportunity`. -/
    service (o : TxAnswer)

section Machine

variable {α : Type} (conn : ℕ) (type : SockType)

/-- The entry that tells the client it may write. -/
def writableEntry : ReadyEntry := ⟨conn, .writable⟩

/-- `ipaugenblick_tx_buf_count`: the flag is cleared. -/
def TxSlot.txBufCount (s : TxSlot α) : TxSlot α :=
  { s with writeDoneFromApp := false, enqueued := false, kicked := false }

/-- The service takes up to `n` buffers from `tx_ring`. -/
def TxSlot.dequeueTxBufs (s : TxSlot α) (n : ℕ) : TxSlot α :=
  let taken := s.txRing.dequeueBurst n
  { s with txRing := taken.2, removed := s.removed || !taken.1.isEmpty }

/-- The end of `user_on_transmission_opportunity`, and of `process_commands` around it. -/
def TxSlot.finish (s : TxSlot α) : TxSlot α :=
  { s with
    service := .idle
    command := false
    freeCommands := if s.command then s.freeCommands + 1 else s.freeCommands
    drained := s.drained || s.removed }

/-- `ipaugenblick_socket_kick` returns 0. -/
def TxSlot.kickReturn (s : TxSlot α) : TxSlot α :=
  { s with client := .idle, kicked := s.kicked || s.enqueued }

/-- The next access of `user_on_transmission_opportunity`. -/
def TxSlot.serviceStep (s : TxSlot α) (o : TxAnswer) : Option (TxSlot α) :=
  match s.service with
  | .idle => none
  | .count =>
      let s := s.txBufCount
      if s.txRing.count = 0 then some { s with service := .mark }
      else if type = .stream then some { s with service := .sendpage }
      else some { s with service := .burst s.txRing.count }
  | .sendpage =>
      match o.sendpage with
      | some n => some (s.dequeueTxBufs n)
      | none => some { s with service := .recount }
  | .recount => some { s.txBufCount with service := .mark }
  | .burst ringEntries => some { s.dequeueTxBufs ringEntries with service := .sendmsg }
  | .sendmsg => if o.exhausted then some s.finish else some { s with service := .count }
  | .mark =>
      if s.writeReadyToApp then some s.finish
      else some { s with writeReadyToApp := true, service := .post }
  | .post =>
      some (TxSlot.finish
        { s with ready := (s.ready.enqueueBulk (readyCapacity + 1) [writableEntry conn]).2 })

/-- The client and the service of one connection, from any contents of the rings.  Each access to
the flags and rings is a step, and other clients share the ready ring, the commands and their
pool. -/
def txSlotMachine (txRing : Ring α dataRingCapacity) (ready : Ring ReadyEntry readyCapacity)
    (commandRing : Ring Command commandRingCapacity) (freeCommands : ℕ) :
    Machine (TxSlot α) (TxSlotStep α) where
  init :=
    { txRing, ready, commandRing, freeCommands
      writeReadyToApp := false, writeDoneFromApp := false
      client := .idle, service := .idle, command := false
      enqueued := false, kicked := false
      failed := false, removed := false, drained := false, seen := false }
  step s
    | .send mbufs =>
        match s.client with
        | .idle => some { s with
            writeReadyToApp := false
            removed := false, drained := false, seen := false
            client := .send mbufs }
        | _ => none
    | .sendEnqueue =>
        match s.client with
        | .send mbufs =>
            match s.txRing.enqueueBulk 1 mbufs with
            | (.nobufs, _) => some { s with failed := true, client := .idle }
            | (_, txRing) => some { s with
                txRing, enqueued := s.enqueued || !mbufs.isEmpty, client := .idle }
        | _ => none
    | .kick =>
        match s.client with
        | .idle =>
            if s.writeDoneFromApp then some s.kickReturn
            else some { s with writeDoneFromApp := true, client := .kick }
        | _ => none
    | .kickAlloc =>
        match s.client with
        | .kick =>
            -- without a buffer it returns -1, and the flag stays set
            if s.freeCommands = 0 then some { s with client := .idle }
            else some { s with freeCommands := s.freeCommands - 1, client := .kickPost }
        | _ => none
    | .kickPost =>
        match s.client with
        | .kickPost =>
            match s.commandRing.enqueueBulk (commandRingCapacity + 1) [.txKick conn] with
            -- it returns 0 all the same, and the flag stays set
            | (.nobufs, _) => some { s.kickReturn with freeCommands := s.freeCommands + 1 }
            | (_, commandRing) => some { s.kickReturn with commandRing }
        | _ => none
    | .select =>
        match s.client with
        | .idle => some { s with client := .select s.ready.count }
        | _ => none
    | .selectTake =>
        match s.client with
        | .select readyCount =>
            if s.ready.count < readyCount then some { s with client := .idle }
            else
              let taken := s.ready.dequeueBurst readyCount
              some { s with
                ready := taken.2
                seen := s.seen || decide (writableEntry conn ∈ taken.1)
                client := .idle }
        | _ => none
    | .otherTake =>
        if s.freeCommands = 0 then none else some { s with freeCommands := s.freeCommands - 1 }
    | .otherPost cmd =>
        if cmd = .txKick conn then none
        else some { s with
          commandRing := (s.commandRing.enqueueBulk (commandRingCapacity + 1) [cmd]).2 }
    | .otherFree => some { s with freeCommands := s.freeCommands + 1 }
    | .otherReady e =>
        if e = writableEntry conn then none
        else some { s with ready := (s.ready.enqueueBulk (readyCapacity + 1) [e]).2 }
    | .takeCommand =>
        if s.service = .idle then
          match s.commandRing.dequeue with
          | some (cmd, commandRing) =>
              if cmd = .txKick conn then
                some { s with commandRing, service := .count, command := true }
              else some { s with commandRing, freeCommands := s.freeCommands + 1 }
          | none => none
        else none
    | .opportunity => if s.service = .idle then some { s with service := .count } else none
    | .service o => s.serviceStep conn type o

end Machine

end IpAugenblick
