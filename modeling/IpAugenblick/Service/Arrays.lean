/-
# Indices into the shared arrays

The service indexes `socket_satelite_data` by the number in a command, `g_ipaugenblick_sockets` by
the `ringset_idx` of a satelite and `g_ipaugenblick_selectors` by its `parent_idx`; the client
library indexes `selectors` by the `select` of a descriptor.  The last three are -1 where there is
no slot or no selector, and the entries of the ready rings are made of them.

SET_SOCKET_SELECT does not look whether there is a socket, a connection that was accepted without
a command buffer keeps the satelite of its listener, and the client library logs the length of the
selector's queue also where there is no selector.  In the runs without these every index is in its
array, and `ipaugenblick_select` does not exit.

What stands around the arrays is a parameter of the machine: the results hold whatever is read
there.
-/

import Mathlib.Data.Int.Notation
import IpAugenblick.Lib.Custody
import IpAugenblick.Lib.Machine
import IpAugenblick.Lib.Ring
import IpAugenblick.Rx.Wakeup
import IpAugenblick.Service.Slots

namespace IpAugenblick

open Lib

/-- `IPAUGENBLICK_SELECTOR_POOL_SIZE`. -/
def selectorPoolSize : ℕ := 64

/-- The arrays of the service and of the client library. -/
inductive SharedArray
  | /-- `socket_satelite_data`. -/
    satelites
  | /-- `g_ipaugenblick_sockets`. -/
    sockets
  | /-- `g_ipaugenblick_selectors`. -/
    selectors
  | /-- `selectors` of a client process. -/
    clientSelectors
  deriving DecidableEq, Repr

def SharedArray.size : SharedArray → ℕ
  | .satelites | .sockets => connectionPoolSize
  | .selectors | .clientSelectors => selectorPoolSize

structure Access where
  array : SharedArray
  index : ℤ
  deriving DecidableEq, Repr

def Access.InArray (a : Access) : Prop := 0 ≤ a.index ∧ a.index < a.array.size

/-- `SOCKET_READABLE_BIT`, `SOCKET_WRITABLE_BIT` and `SOCKET_CLOSED_BIT`. -/
def ReadyBit.mask : ReadyBit → BitVec 32
  | .readable => 1
  | .writable => 2
  | .closed => 4

/-- `ringidx_ready_mask`, with `SOCKET_READY_SHIFT`. -/
def ringidxReadyMask (ringsetIdx : ℤ) (bit : ReadyBit) : BitVec 32 :=
  BitVec.ofInt 32 ringsetIdx ||| bit.mask <<< 16

/-- The socket of an entry, under `SOCKET_READY_MASK`. -/
def readySocket (e : BitVec 32) : ℕ := (e &&& 0xFFFF).toNat

/-- What the marks write to, and the elements that were used. -/
structure Board where
  /-- `read_ready_to_app` and `write_ready_to_app` of `g_ipaugenblick_sockets`, and what the
  memory around the array reads as in their place. -/
  readyToApp : ReadyBit → ℤ → Bool
  /-- `ready_connections`. -/
  ready : ℤ → Ring (BitVec 32) readyCapacity
  accesses : List Access

/-- `socket_satelite_data[i]`. -/
structure SateliteData where
  socket : Option ℕ
  ringsetIdx : ℤ
  parentIdx : ℤ
  deriving DecidableEq, Repr

namespace Board

variable (b : Board)

def touch (array : SharedArray) (index : ℤ) : Board :=
  { b with accesses := ⟨array, index⟩ :: b.accesses }

def post (selector : ℤ) (e : BitVec 32) : Board :=
  { b with
    ready := Function.update b.ready selector
      ((b.ready selector).enqueueBulk (readyCapacity + 1) [e]).2 }

def setReady (bit : ReadyBit) (i : ℤ) (value : Bool) : Board :=
  { b with
    readyToApp :=
      Function.update b.readyToApp bit (Function.update (b.readyToApp bit) i value) }

/-- `ipaugenblick_mark_readable`, `ipaugenblick_mark_writable` and `ipaugenblick_mark_closed`. -/
def mark (d : SateliteData) (bit : ReadyBit) : Board :=
  if d.parentIdx = -1 then b
  else if bit = .closed then
    (b.touch .selectors d.parentIdx).post d.parentIdx (ringidxReadyMask d.ringsetIdx bit)
  else if b.readyToApp bit d.ringsetIdx then b.touch .sockets d.ringsetIdx
  else
    ((((b.touch .sockets d.ringsetIdx).setReady bit d.ringsetIdx true).touch .selectors
      d.parentIdx).post d.parentIdx (ringidxReadyMask d.ringsetIdx bit))

end Board

/-- `local_socket_descriptors[i]`. -/
structure SocketDescr where
  select : ℤ
  localMask : BitVec 32
  presentInReadyCache : Bool
  deriving DecidableEq, Repr

structure ArraysClient where
  descr : ℕ → SocketDescr
  /-- `level_mode` of `selectors`, and what stands around the array. -/
  levelMode : ℤ → Bool
  /-- `ipaugenblick_select` has called `exit`. -/
  exited : Bool

namespace ArraysClient

variable (c : ArraysClient)

def setDescr (i : ℕ) (d : SocketDescr) : ArraysClient :=
  { c with descr := Function.update c.descr i d }

/-- `_ipaugenblick_remove_socket_from_cache`; the length of the queue is an argument of the log. -/
def removeSocketFromCache (b : Board) (sock : ℕ) : ArraysClient × Board :=
  let d := c.descr sock
  (if d.select ≠ -1 ∧ d.presentInReadyCache ∧ c.levelMode d.select then
      c.setDescr sock { d with presentInReadyCache := false }
    else c, b.touch .clientSelectors d.select)

/-- `ipaugenblick_update_local_ready_cache`. -/
def updateLocalReadyCache (b : Board) (sock : ℕ) (bit : ReadyBit) : ArraysClient × Board :=
  let d := c.descr sock
  if d.select = -1 then (c, b)
  else
    let c := c.setDescr sock { d with localMask := d.localMask &&& ~~~bit.mask }
    if (c.descr sock).localMask ≠ 0 then (c, b) else c.removeSocketFromCache b sock

/-- `ipaugenblick_put_to_local_cache`. -/
def putToLocalCache (b : Board) (sock : ℕ) : ArraysClient × Board :=
  let d := c.descr sock
  if d.localMask = 0 ∨ d.presentInReadyCache then (c, b)
  else
    (if c.levelMode d.select then c.setDescr sock { d with presentInReadyCache := true } else c,
      b.touch .clientSelectors d.select)

/-- What `ipaugenblick_select` does with an entry, after it has not exited. -/
def selectEntry (b : Board) (e : BitVec 32) : ArraysClient × Board :=
  let sock := readySocket e
  if c.exited then (c, b)
  else if connectionPoolSize ≤ sock then ({ c with exited := true }, b)
  else if (c.descr sock).select = -1 then (c, b)
  else
    let d := c.descr sock
    (c.setDescr sock { d with localMask := d.localMask ||| e >>> 16 }).putToLocalCache b sock

/-- The loop of `ipaugenblick_select` over the entries that it dequeued. -/
def selectEntries : ArraysClient → Board → List (BitVec 32) → ArraysClient × Board
  | c, b, [] => (c, b)
  | c, b, e :: entries =>
      selectEntries (c.selectEntry b e).1 (c.selectEntry b e).2 entries

end ArraysClient

structure StackSocket where
  isStream : Bool
  listening : Bool
  /-- `sk_user_data`, the slot of the satelite that it points to. -/
  userData : Option ℕ
  deriving DecidableEq, Repr

inductive ArraysCommand
  | openSocket (i : ℕ) (isStream : Bool) (parentIdx : ℤ)
  | socketConnectBind (i : ℕ) (isConnect : Bool)
  | listen (i : ℕ)
  | close (i : ℕ)
  | txKick (i : ℕ)
  | rxKick (i : ℕ)
  | setSocketRing (i : ℕ) (parentIdx : ℤ) (socket : ℕ)
  | setSocketSelect (i : ℕ) (select : ℤ)
  | txPoolEmpty (i : ℕ)
  | setsockopt (i : ℕ)
  | shutdown (i : ℕ)
  | decline (socket : ℕ)
  deriving DecidableEq, Repr

def ArraysCommand.ringsetIdx : ArraysCommand → Option ℕ
  | .openSocket i _ _ | .socketConnectBind i _ | .listen i | .close i | .txKick i | .rxKick i
  | .setSocketRing i _ _ | .setSocketSelect i _ | .txPoolEmpty i | .setsockopt i
  | .shutdown i => some i
  | .decline _ => none

/-- The service and the client processes.  Indices into the arrays are integers, as the code
computes them, and every access to the four arrays is recorded on the board. -/
structure ArraysState where
  board : Board
  satelites : ℕ → SateliteData
  sockets : ℕ → StackSocket
  /-- The sockets that the stack has made. -/
  created : ℕ
  /-- The ACCEPTED commands of each `rx_ring`, by their socket. -/
  accepted : ℕ → List ℕ
  freeConnectionsRing : Ring ℕ (connectionPoolSize - 1)
  selectorsRing : Ring ℕ (selectorPoolSize - 1)
  /-- The selectors that `ipaugenblick_open_select` has returned. -/
  opened : List ℕ
  commands : List ArraysCommand
  /-- `buffers_available_notification_socket_list_head`. -/
  buffersAvailable : List ℕ
  /-- The service has not exited or crashed. -/
  running : Bool
  clients : ℕ → ArraysClient

/-- What the stack answers while a command is processed. -/
structure ArraysAnswer where
  /-- The call succeeds. -/
  ok : Bool
  /-- `user_data_available_cbk` submits a chain. -/
  submits : Bool
  /-- A datagram was not sent. -/
  exhausted : Bool
  deriving DecidableEq, Repr

inductive ArraysStep
  | openSelect
  | setSelectorMode (a selector : ℕ) (mode : Bool)
  | openSocket (a : ℕ) (isStream : Bool) (parent : ℤ) (gotCommand room : Bool)
  | setSocketSelect (a sock : ℕ) (select : ℤ) (gotCommand room : Bool)
  | close (a sock : ℕ) (gotCommand room : Bool)
  | fdclear (a sock : ℕ)
  | shutdown (a sock : ℕ) (gotCommand room : Bool)
  | /-- A call that only queues a command. -/
    enqueue (c : ArraysCommand)
  | /-- A send, a receive or an accept clears a flag. -/
    clearReady (sock : ℕ) (bit : ReadyBit)
  | /-- It finds the ring full or empty. -/
    updateLocalReadyCache (a sock : ℕ) (bit : ReadyBit)
  | /-- `ipaugenblick_receive` leaves a part of a chain. -/
    repost (a sock : ℕ)
  | accept (a sock : ℕ) (room : Bool)
  | /-- `ipaugenblick_select` with a selector that was opened. -/
    select (a selector : ℕ)
  | processCommand (answer : ArraysAnswer)
  | transmissionOpportunity (socket : ℕ) (exhausted : Bool)
  | dataAvailable (socket : ℕ) (submits : Bool)
  | /-- `user_transmitted_callback`. -/
    transmitted (socket : ℕ)
  | /-- `user_on_socket_fatal`. -/
    socketFatal (socket : ℕ)
  | /-- A round of `user_on_accept`. -/
    onAccept (socket : ℕ) (gotCommand room : Bool)
  | /-- A round of the main loop over the sockets that wait for buffers; `stays` is what
    `ipaugenblick_mark_writable` returns. -/
    buffersAvailable (stays : Bool)
  deriving DecidableEq, Repr

namespace ArraysState

variable (s : ArraysState)

def setSatelite (i : ℕ) (d : SateliteData) : ArraysState :=
  { s with satelites := Function.update s.satelites i d }

def setSocket (k : ℕ) (sock : StackSocket) : ArraysState :=
  { s with sockets := Function.update s.sockets k sock }

def setClient (a : ℕ) (c : ArraysClient × Board) : ArraysState :=
  { s with clients := Function.update s.clients a c.1, board := c.2 }

def touch (array : SharedArray) (index : ℤ) : ArraysState :=
  { s with board := s.board.touch array index }

def mark (i : ℕ) (bit : ReadyBit) : ArraysState :=
  { s with board := s.board.mark (s.satelites i) bit }

/-- `ipaugenblick_enqueue_command_buf`. -/
def enqueue (room : Bool) (c : ArraysCommand) : ArraysState :=
  if room then { s with commands := s.commands ++ [c] } else s

/-- `exit` or a fault. -/
def stop : ArraysState := { s with running := false }

/-- `user_data_available_cbk`. -/
def dataAvailable (socket : Option ℕ) (submits : Bool) : ArraysState :=
  match socket with
  | none => s
  | some k =>
      match (s.sockets k).userData with
      | none => s
      | some i =>
          if (s.sockets k).listening then s.stop
          else if submits then s.mark i .readable
          else s

/-- `user_on_transmission_opportunity`. -/
def transmissionOpportunity (k : ℕ) (exhausted : Bool) : ArraysState :=
  match (s.sockets k).userData with
  | none => s
  | some i =>
      if (s.sockets k).listening then s.stop
      else
        let s := s.touch .sockets (s.satelites i).ringsetIdx
        if (s.sockets k).isStream ∨ !exhausted then s.mark i .writable else s

/-- The cases of `process_commands`. -/
def handle (answer : ArraysAnswer) : ArraysCommand → ArraysState
  | .openSocket i isStream parentIdx =>
      if answer.ok then
        let t := { s with created := s.created + 1 }
        ((t.setSatelite i ⟨some s.created, i, parentIdx⟩).setSocket s.created
          ⟨isStream, false, some i⟩).touch .sockets i
      else s
  | .socketConnectBind i isConnect =>
      match (s.satelites i).socket with
      | none => s
      | some _ => if isConnect ∧ answer.ok then s.touch .sockets i else s
  | .listen i =>
      match (s.satelites i).socket with
      | none => s.stop
      | some k =>
          if answer.ok then s.setSocket k { s.sockets k with listening := true } else s
  | .close i =>
      match (s.satelites i).socket with
      | none => s
      | some k =>
          let t := { s with
            freeConnectionsRing := (s.freeConnectionsRing.enqueueBulk connectionPoolSize [i]).2 }
          ((t.setSocket k { s.sockets k with userData := none }).setSatelite i
            ⟨none, -1, -1⟩).touch .sockets i
  | .txKick i =>
      match (s.satelites i).socket with
      | none => s
      | some k => s.transmissionOpportunity k answer.exhausted
  | .rxKick i => s.dataAvailable (s.satelites i).socket answer.submits
  | .setSocketRing i parentIdx k =>
      let d : SateliteData :=
        ⟨some k, i, if parentIdx ≠ -1 then parentIdx else (s.satelites i).parentIdx⟩
      let s := ((s.setSatelite i d).setSocket k { s.sockets k with userData := some i }).touch
        .sockets i
      ((s.dataAvailable (some k) answer.submits).mark i .writable).mark i .readable
  | .setSocketSelect i select =>
      let s := s.setSatelite i { s.satelites i with parentIdx := select }
      ((s.dataAvailable (s.satelites i).socket answer.submits).mark i .writable).mark i .readable
  | .txPoolEmpty i =>
      match (s.satelites i).socket with
      | none => s
      | some k =>
          if k ∈ s.buffersAvailable then s
          else
            let s := { s with buffersAvailable := s.buffersAvailable ++ [k] }
            if (s.sockets k).isStream then s else s.touch .sockets (s.satelites i).ringsetIdx
  | .setsockopt _ => s
  | .shutdown i =>
      match (s.satelites i).socket with
      | none => s
      | some k =>
          if answer.ok then s.setSocket k { s.sockets k with listening := false } else s
  | .decline k => s.setSocket k { s.sockets k with userData := none }

def processCommand (answer : ArraysAnswer) (c : ArraysCommand) : ArraysState :=
  match c.ringsetIdx with
  | none => s.handle answer c
  | some i => (s.touch .satelites i).handle answer c

end ArraysState

/-- The numbers that fit a ring when the service starts. -/
def initialSelectors : Ring ℕ (selectorPoolSize - 1) :=
  Ring.empty.enqueueBurst (List.range selectorPoolSize)

/-- A selector that the client has from `ipaugenblick_open_select`, or none. -/
def ArraysState.Given (s : ArraysState) (select : ℤ) : Prop :=
  select = -1 ∨ ∃ i ∈ s.opened, select = (i : ℕ)

instance (s : ArraysState) (select : ℤ) : Decidable (s.Given select) :=
  inferInstanceAs (Decidable (select = -1 ∨ ∃ i ∈ s.opened, select = (i : ℕ)))

/-- The commands that a call only queues. -/
def ArraysCommand.Plain : ArraysCommand → Prop
  | .socketConnectBind i _ | .listen i | .txKick i | .rxKick i | .txPoolEmpty i
  | .setsockopt i => i < connectionPoolSize
  | _ => False

instance : ∀ c : ArraysCommand, Decidable c.Plain
  | .socketConnectBind i _ | .listen i | .txKick i | .rxKick i | .txPoolEmpty i
  | .setsockopt i => inferInstanceAs (Decidable (i < connectionPoolSize))
  | .openSocket _ _ _ | .close _ | .setSocketRing _ _ _ | .setSocketSelect _ _ | .shutdown _
  | .decline _ => .isFalse id

/-- `ipaugenblick_reset_local_descriptor`. -/
def SocketDescr.reset (d : SocketDescr) : SocketDescr :=
  { d with localMask := 0, presentInReadyCache := false }

/-- What the memory around the arrays reads as where the code looks for a flag in it.  Nothing is
known of it: `g_ipaugenblick_sockets` is an object of a mempool, whose header stands in front of
the array. -/
structure Surroundings where
  readyToApp : ReadyBit → ℤ → Bool
  levelMode : ℕ → ℤ → Bool

/-- A service with its clients.  The flags of the connections start at 0, as the pool is zeroed;
the memory in front of the arrays and behind them is not, and `around` is any contents of it. -/
def arraysMachine (around : Surroundings) : Machine ArraysState ArraysStep where
  init :=
    { board := ⟨fun bit i => if 0 ≤ i ∧ i < connectionPoolSize then false
        else around.readyToApp bit i, fun _ => .empty, []⟩
      satelites := fun _ => ⟨none, -1, -1⟩
      sockets := fun _ => ⟨true, false, none⟩
      created := 0, accepted := fun _ => [], freeConnectionsRing := initialConnections
      selectorsRing := initialSelectors, opened := [], commands := [], buffersAvailable := []
      running := true, clients := fun a => ⟨fun _ => ⟨-1, 0, false⟩, fun i =>
        if 0 ≤ i ∧ i < selectorPoolSize then false else around.levelMode a i, false⟩ }
  step s
    | .openSelect =>
        match s.selectorsRing.dequeue with
        | none => some s
        | some (i, ring) => some { s with selectorsRing := ring, opened := i :: s.opened }
    | .setSelectorMode a selector mode =>
        if selector ∈ s.opened then
          let c := s.clients a
          some (s.setClient a
            ({ c with levelMode := Function.update c.levelMode selector mode }, s.board))
        else none
    | .openSocket a isStream parent gotCommand room =>
        if (s.clients a).exited = false ∧ s.Given parent then
          match s.freeConnectionsRing.dequeue with
          | none => some s
          | some (i, ring) =>
              let c := s.clients a
              let t := { s with freeConnectionsRing := ring }
              if gotCommand ∧ room then
                some ((t.enqueue true (.openSocket i isStream parent)).setClient a
                  (c.setDescr i { (c.descr i).reset with select := parent }, s.board))
              else some t
        else none
    | .setSocketSelect a sock select gotCommand room =>
        if (s.clients a).exited = false ∧ sock < connectionPoolSize ∧ s.Given select then
          let c := s.clients a
          if gotCommand ∧ room then
            some ((s.enqueue true (.setSocketSelect sock select)).setClient a
              (c.setDescr sock { c.descr sock with select := select }, s.board))
          else some s
        else none
    | .close a sock gotCommand room =>
        if (s.clients a).exited = false ∧ sock < connectionPoolSize then
          if gotCommand then
            let (c, board) := (s.clients a).removeSocketFromCache s.board sock
            some ((s.enqueue room (.close sock)).setClient a
              (c.setDescr sock { c.descr sock with select := -1 }, board))
          else some s
        else none
    | .fdclear a sock =>
        if (s.clients a).exited = false ∧ sock < connectionPoolSize then
          some (s.setClient a ((s.clients a).removeSocketFromCache s.board sock))
        else none
    | .shutdown a sock gotCommand room =>
        if (s.clients a).exited = false ∧ sock < connectionPoolSize then
          if gotCommand then
            some ((s.enqueue room (.shutdown sock)).setClient a
              ((s.clients a).removeSocketFromCache s.board sock))
          else some s
        else none
    | .enqueue c => if c.Plain then some (s.enqueue true c) else none
    | .clearReady sock bit =>
        if sock < connectionPoolSize then
          some { s with board := s.board.setReady bit sock false }
        else none
    | .updateLocalReadyCache a sock bit =>
        if (s.clients a).exited = false ∧ sock < connectionPoolSize then
          some (s.setClient a ((s.clients a).updateLocalReadyCache s.board sock bit))
        else none
    | .repost a sock =>
        if (s.clients a).exited = false ∧ sock < connectionPoolSize then
          let d := (s.clients a).descr sock
          if d.select = -1 then some s
          else
            some { s with
              board := (s.board.touch .clientSelectors d.select).post d.select
                (ringidxReadyMask sock .readable) }
        else none
    | .accept a sock room =>
        if (s.clients a).exited = false ∧ sock < connectionPoolSize then
          match s.accepted sock with
          | [] => none
          | k :: rest =>
              let t := { s with accepted := Function.update s.accepted sock rest }
              match s.freeConnectionsRing.dequeue with
              | none => some (t.enqueue room (.decline k))
              | some (i, ring) =>
                  let c := s.clients a
                  some (({ t with freeConnectionsRing := ring }.enqueue room
                    (.setSocketRing i (-1) k)).setClient a
                    (c.setDescr i (c.descr i).reset, s.board))
        else none
    | .select a selector =>
        if (s.clients a).exited = false ∧ selector ∈ s.opened then
          let ring := s.board.ready selector
          let (taken, left) := ring.dequeueBurst ring.count
          some (s.setClient a ((s.clients a).selectEntries
            { s.board.touch .clientSelectors selector with
              ready := Function.update s.board.ready selector left } taken))
        else none
    | .processCommand answer =>
        match s.running, s.commands with
        | true, c :: rest => some (ArraysState.processCommand { s with commands := rest } answer c)
        | _, _ => none
    | .transmissionOpportunity k exhausted =>
        if s.running then some (s.transmissionOpportunity k exhausted) else none
    | .dataAvailable k submits =>
        if s.running then some (s.dataAvailable (some k) submits) else none
    | .transmitted k =>
        if s.running then
          match (s.sockets k).userData with
          | none => some s
          | some i => some (s.touch .sockets (s.satelites i).ringsetIdx)
        else none
    | .socketFatal k =>
        if s.running then
          match (s.sockets k).userData with
          | none => some s
          | some i => some (s.mark i .closed)
        else none
    | .onAccept k gotCommand room =>
        if s.running ∧ (s.sockets k).listening then
          let t := { s with created := s.created + 1 }
          match gotCommand, (s.sockets k).userData with
          | false, userData => some (t.setSocket s.created ⟨true, false, userData⟩)
          | true, none => some s.stop
          | true, some i =>
              let t := t.setSocket s.created ⟨true, false, none⟩
              if room then
                let accepted := Function.update t.accepted i (t.accepted i ++ [s.created])
                some ({ t with accepted := accepted }.mark i .readable)
              else some t
        else none
    | .buffersAvailable stays =>
        match s.running, s.buffersAvailable with
        | true, k :: rest =>
            match (s.sockets k).userData with
            | none => some s.stop
            | some i =>
                match (s.satelites i).socket with
                | none => some s.stop
                | some k' =>
                    let t := if (s.sockets k').isStream then s
                      else s.touch .sockets (s.satelites i).ringsetIdx
                    let t := t.mark i .writable
                    some (if stays then t else { t with buffersAvailable := rest })
        | _, _ => none

/-! ## The property and its guard -/

/-- Every index is in its array, the entries of the ready rings name a socket and no client has
exited. -/
structure ArraysState.InRange (s : ArraysState) : Prop where
  accesses : ∀ a ∈ s.board.accesses, a.InArray
  ready : ∀ selector, ∀ e ∈ (s.board.ready selector).items, readySocket e < connectionPoolSize
  exited : ∀ a, (s.clients a).exited = false

/-- The satelite that a socket points to has a slot. -/
def ArraysState.Slotted (s : ArraysState) (k : ℕ) : Prop :=
  ∀ i ∈ (s.sockets k).userData, (s.satelites i).ringsetIdx ≠ -1

/-- A SET_SOCKET_SELECT that names a selector finds a slot. -/
def ArraysState.SelectOk (s : ArraysState) : ArraysCommand → Prop
  | .setSocketSelect i select => select = -1 ∨ (s.satelites i).ringsetIdx ≠ -1
  | _ => True

/-- SET_SOCKET_SELECT finds a slot, nothing is sent from a connection that has the satelite of a
closed listener, and a socket is only closed, cleared or shut down while it has a selector. -/
def arraysOk (s : ArraysState) : ArraysStep → Prop
  | .close a sock gotCommand _ => gotCommand → ((s.clients a).descr sock).select ≠ -1
  | .fdclear a sock => ((s.clients a).descr sock).select ≠ -1
  | .shutdown a sock gotCommand _ => gotCommand → ((s.clients a).descr sock).select ≠ -1
  | .processCommand _ => ∀ c ∈ s.commands.head?, s.SelectOk c
  | .transmissionOpportunity k _ => (s.sockets k).listening ∨ s.Slotted k
  | .transmitted k => s.Slotted k
  | _ => True

/-! ## The marks -/

def SelectorOk (z : ℤ) : Prop := z = -1 ∨ 0 ≤ z ∧ z < selectorPoolSize

/-- A satelite with a selector or a socket has a slot, its own. -/
structure SateliteData.Ok (d : SateliteData) (i : ℕ) : Prop where
  ringset : d.ringsetIdx = -1 ∨ d.ringsetIdx = i ∧ i < connectionPoolSize
  parent : SelectorOk d.parentIdx
  marked : d.parentIdx ≠ -1 → d.ringsetIdx ≠ -1
  bound : d.socket ≠ none → d.ringsetIdx ≠ -1

theorem SateliteData.Ok.inArray {d : SateliteData} {i : ℕ} (h : d.Ok i)
    (hslot : d.ringsetIdx ≠ -1) :
    (⟨.sockets, d.ringsetIdx⟩ : Access).InArray := by
  obtain ⟨heq, hlt⟩ := h.ringset.resolve_left hslot
  rw [heq]
  exact ⟨Int.natCast_nonneg i, Int.ofNat_lt.mpr hlt⟩

theorem SelectorOk.inArray {z : ℤ} (h : SelectorOk z) (hz : z ≠ -1) :
    (⟨.selectors, z⟩ : Access).InArray ∧ (⟨.clientSelectors, z⟩ : Access).InArray :=
  ⟨h.resolve_left hz, h.resolve_left hz⟩

theorem SelectorOk.of_lt {i : ℕ} (h : i < selectorPoolSize) : SelectorOk (i : ℕ) :=
  .inr ⟨Int.natCast_nonneg i, Int.ofNat_lt.mpr h⟩

/-- The bits of an event are above those of the socket. -/
theorem readySocket_ringidxReadyMask {i : ℕ} (hi : i < connectionPoolSize) (bit : ReadyBit) :
    readySocket (ringidxReadyMask i bit) = i := by
  have hmask : bit.mask <<< 16 &&& 0xFFFF = 0 := by
    cases bit <;> rfl
  have hlow : ringidxReadyMask i bit &&& 0xFFFF = BitVec.ofNat 32 i &&& 0xFFFF := by
    unfold ringidxReadyMask
    rw [BitVec.and_or_distrib_right, hmask, BitVec.ofInt_natCast]
    exact BitVec.or_zero
  have hsmall : i < 2 ^ 16 := hi.trans (by decide)
  unfold readySocket
  rw [hlow, BitVec.toNat_and, BitVec.toNat_ofNat, Nat.mod_eq_of_lt (hsmall.trans (by decide))]
  exact Nat.and_two_pow_sub_one_of_lt_two_pow hsmall

/-- What `InRange` says of the board. -/
structure Board.Ok (b : Board) : Prop where
  accesses : ∀ a ∈ b.accesses, a.InArray
  ready : ∀ selector, ∀ e ∈ (b.ready selector).items, readySocket e < connectionPoolSize

section Board

variable {b : Board}

theorem Board.Ok.touch (h : b.Ok) {array : SharedArray} {index : ℤ}
    (hin : (⟨array, index⟩ : Access).InArray) : (b.touch array index).Ok where
  accesses a ha := by
    rcases List.mem_cons.mp ha with rfl | ha
    · exact hin
    · exact h.accesses a ha
  ready := h.ready

theorem Board.Ok.post (h : b.Ok) {e : BitVec 32} (he : readySocket e < connectionPoolSize)
    (selector : ℤ) : (b.post selector e).Ok where
  accesses := h.accesses
  ready z e' he' := by
    unfold Board.post at he'
    dsimp only at he'
    rw [Function.update_apply] at he'
    split at he'
    next =>
        rw [Ring.items_enqueueBulk] at he'
        split at he'
        · exact h.ready selector e' he'
        · rcases List.mem_append.mp he' with he' | he'
          · exact h.ready selector e' he'
          · rwa [List.mem_singleton.mp he']
    next => exact h.ready z e' he'

theorem Board.Ok.mark (h : b.Ok) {d : SateliteData} {i : ℕ} (hd : d.Ok i) (bit : ReadyBit) :
    (b.mark d bit).Ok := by
  unfold Board.mark
  split
  next => exact h
  next hparent =>
      have hslot := hd.marked hparent
      obtain ⟨hidx, hlt⟩ := hd.ringset.resolve_left hslot
      have he : readySocket (ringidxReadyMask d.ringsetIdx bit) < connectionPoolSize := by
        rw [hidx, readySocket_ringidxReadyMask hlt]
        exact hlt
      have hselector := (hd.parent.inArray hparent).1
      have hsockets := hd.inArray hslot
      split
      next => exact (h.touch hselector).post he _
      next =>
          split
          next => exact h.touch hsockets
          next =>
              have hset : ((b.touch .sockets d.ringsetIdx).setReady bit d.ringsetIdx true).Ok :=
                ⟨(h.touch hsockets).accesses, (h.touch hsockets).ready⟩
              exact (hset.touch hselector).post he _

end Board

/-! ## The client library -/

/-- The descriptors name selectors, and the process has not exited. -/
structure ArraysClient.Ok (c : ArraysClient) : Prop where
  exited : c.exited = false
  select : ∀ i, SelectorOk (c.descr i).select

section Client

variable {c : ArraysClient} {b : Board} {sock : ℕ}

theorem ArraysClient.descr_setDescr (c : ArraysClient) (i : ℕ) (d : SocketDescr) :
    (c.setDescr i d).descr i = d := Function.update_self _ _ _

theorem ArraysClient.Ok.setDescr (h : c.Ok) (i : ℕ) (d : SocketDescr) (hd : SelectorOk d.select) :
    (c.setDescr i d).Ok where
  exited := h.exited
  select j := by
    unfold ArraysClient.setDescr
    dsimp only
    rw [Function.update_apply]
    split
    next => exact hd
    next => exact h.select j

theorem ArraysClient.Ok.removeSocketFromCache (h : c.Ok) (hb : b.Ok)
    (hselect : (c.descr sock).select ≠ -1) :
    (c.removeSocketFromCache b sock).1.Ok ∧ (c.removeSocketFromCache b sock).2.Ok := by
  have hd := h.select sock
  unfold ArraysClient.removeSocketFromCache
  dsimp only
  refine ⟨?_, hb.touch (hd.inArray hselect).2⟩
  split
  · exact h.setDescr sock _ hd
  · exact h

theorem ArraysClient.Ok.updateLocalReadyCache (h : c.Ok) (hb : b.Ok) (bit : ReadyBit) :
    (c.updateLocalReadyCache b sock bit).1.Ok ∧ (c.updateLocalReadyCache b sock bit).2.Ok := by
  unfold ArraysClient.updateLocalReadyCache
  dsimp only
  split
  next => exact ⟨h, hb⟩
  next hselect =>
      have hmasked := h.setDescr sock { c.descr sock with
        localMask := (c.descr sock).localMask &&& ~~~bit.mask } (h.select sock)
      split
      next => exact ⟨hmasked, hb⟩
      next =>
          refine hmasked.removeSocketFromCache hb ?_
          rw [ArraysClient.descr_setDescr]
          exact hselect

theorem ArraysClient.Ok.putToLocalCache (h : c.Ok) (hb : b.Ok)
    (hselect : (c.descr sock).select ≠ -1) :
    (c.putToLocalCache b sock).1.Ok ∧ (c.putToLocalCache b sock).2.Ok := by
  have hd := h.select sock
  unfold ArraysClient.putToLocalCache
  dsimp only
  split
  next => exact ⟨h, hb⟩
  next =>
      refine ⟨?_, hb.touch (hd.inArray hselect).2⟩
      split
      · exact h.setDescr sock _ hd
      · exact h

theorem ArraysClient.Ok.selectEntry (h : c.Ok) (hb : b.Ok) {e : BitVec 32}
    (he : readySocket e < connectionPoolSize) :
    (c.selectEntry b e).1.Ok ∧ (c.selectEntry b e).2.Ok := by
  unfold ArraysClient.selectEntry
  dsimp only
  split
  next => exact ⟨h, hb⟩
  next =>
      rw [if_neg (Nat.not_le.mpr he)]
      split
      next => exact ⟨h, hb⟩
      next hselect =>
          have hmasked := h.setDescr (readySocket e) { c.descr (readySocket e) with
            localMask := (c.descr (readySocket e)).localMask ||| e >>> 16 }
            (h.select (readySocket e))
          refine hmasked.putToLocalCache hb ?_
          rw [ArraysClient.descr_setDescr]
          exact hselect

theorem ArraysClient.Ok.selectEntries (h : c.Ok) (hb : b.Ok) {entries : List (BitVec 32)}
    (hentries : ∀ e ∈ entries, readySocket e < connectionPoolSize) :
    (c.selectEntries b entries).1.Ok ∧ (c.selectEntries b entries).2.Ok := by
  induction entries generalizing c b with
  | nil => exact ⟨h, hb⟩
  | cons e entries ih =>
      obtain ⟨hc, hb'⟩ := h.selectEntry hb (hentries e List.mem_cons_self)
      exact ih hc hb' fun e' he' => hentries e' (List.mem_cons_of_mem e he')

end Client

/-! ## Satelites and sockets -/

/-- Who can have an accepted connection that has no slot. -/
inductive AcceptedHolder
  | ring (i : ℕ)
  | command

/-- The socket of a SET_SOCKET_RING or a DECLINE. -/
def ArraysCommand.accepted : ArraysCommand → Option ℕ
  | .setSocketRing _ _ k | .decline k => some k
  | _ => none

def acceptedHeld (accepted : ℕ → List ℕ) (commands : List ArraysCommand) :
    AcceptedHolder → List ℕ
  | .ring i => accepted i
  | .command => commands.filterMap ArraysCommand.accepted

/-- A socket points to the satelite that has it; a connection that waits to be accepted points to
none. -/
structure TablesInv (satelites : ℕ → SateliteData) (sockets : ℕ → StackSocket) (created : ℕ)
    (held : AcceptedHolder → List ℕ) : Prop where
  satelite : ∀ i, (satelites i).Ok i
  bound : ∀ i k, (satelites i).socket = some k → (sockets k).userData = some i
  userData : ∀ k i, (sockets k).userData = some i → i < connectionPoolSize
  exclusive : Exclusive held
  pending : ∀ holder, ∀ k ∈ held holder, (sockets k).userData = none
  fresh : ∀ k, created ≤ k → (sockets k).userData = none ∧ ∀ holder, k ∉ held holder

section Tables

variable {satelites : ℕ → SateliteData} {sockets : ℕ → StackSocket} {created : ℕ}
  {held held' : AcceptedHolder → List ℕ}

/-- A satelite changes but keeps its socket. -/
theorem TablesInv.setSatelite (h : TablesInv satelites sockets created held) (i : ℕ)
    (d : SateliteData) (hd : d.Ok i) (hsocket : d.socket = (satelites i).socket) :
    TablesInv (Function.update satelites i d) sockets created held where
  satelite j := by
    rw [Function.update_apply]
    split
    next hj => rwa [hj]
    next => exact h.satelite j
  bound j k hk := by
    rw [Function.update_apply] at hk
    split at hk
    next hj =>
        rw [hsocket] at hk
        rw [hj]
        exact h.bound i k hk
    next => exact h.bound j k hk
  userData := h.userData
  exclusive := h.exclusive
  pending := h.pending
  fresh := h.fresh

/-- A socket changes but points to the same satelite. -/
theorem TablesInv.setSocket (h : TablesInv satelites sockets created held) (k : ℕ)
    (sock : StackSocket) (hsock : sock.userData = (sockets k).userData) :
    TablesInv satelites (Function.update sockets k sock) created held := by
  have hsame : ∀ j, (Function.update sockets k sock j).userData = (sockets j).userData := by
    intro j
    rw [Function.update_apply]
    split
    next hj => rw [hj, hsock]
    next => rfl
  refine ⟨h.satelite, fun i j hj => ?_, fun j i hj => ?_, h.exclusive, fun holder j hj => ?_,
    fun j hj => ?_⟩
  · rw [hsame]
    exact h.bound i j hj
  · rw [hsame] at hj
    exact h.userData j i hj
  · rw [hsame]
    exact h.pending holder j hj
  · rw [hsame]
    exact h.fresh j hj

/-- A socket that no satelite has gets a satelite that had none, or another one. -/
theorem TablesInv.bind (h : TablesInv satelites sockets created held) {i k : ℕ} {d : SateliteData}
    {sock : StackSocket} (hi : i < connectionPoolSize) (hd : d.Ok i) (hsocket : d.socket = some k)
    (hsock : sock.userData = some i) (hnone : (sockets k).userData = none)
    (hheld : ∀ holder, k ∉ held holder) (hcreated : k < created) :
    TablesInv (Function.update satelites i d) (Function.update sockets k sock) created held where
  satelite j := by
    rw [Function.update_apply]
    split
    next hj => rwa [hj]
    next => exact h.satelite j
  bound j l hl := by
    rw [Function.update_apply] at hl
    split at hl
    next hj =>
        rw [hsocket] at hl
        obtain rfl := Option.some.inj hl
        rw [Function.update_self, hsock, hj]
    next =>
        have hdata := h.bound j l hl
        have hne : l ≠ k := by
          rintro rfl
          rw [hnone] at hdata
          cases hdata
        rw [Function.update_of_ne hne]
        exact hdata
  userData l j hl := by
    rw [Function.update_apply] at hl
    split at hl
    next =>
        rw [hsock] at hl
        obtain rfl := Option.some.inj hl
        exact hi
    next => exact h.userData l j hl
  exclusive := h.exclusive
  pending holder l hl := by
    have hne : l ≠ k := fun hlk => hheld holder (hlk ▸ hl)
    rw [Function.update_of_ne hne]
    exact h.pending holder l hl
  fresh l hl := by
    have hne : l ≠ k := Nat.ne_of_gt (Nat.lt_of_lt_of_le hcreated hl)
    rw [Function.update_of_ne hne]
    exact h.fresh l hl

/-- A satelite and its socket part. -/
theorem TablesInv.unbind (h : TablesInv satelites sockets created held) {i k : ℕ}
    (hbound : (satelites i).socket = some k) {sock : StackSocket} (hsock : sock.userData = none) :
    TablesInv (Function.update satelites i ⟨none, -1, -1⟩) (Function.update sockets k sock) created
      held := by
  have hdata := h.bound i k hbound
  refine ⟨fun j => ?_, fun j l hl => ?_, fun l j hl => ?_, h.exclusive, fun holder l hl => ?_,
    fun l hl => ?_⟩
  · rw [Function.update_apply]
    split
    next => exact ⟨.inl rfl, .inl rfl, fun hne => absurd rfl hne, fun hne => absurd rfl hne⟩
    next => exact h.satelite j
  · rw [Function.update_apply] at hl
    split at hl
    next => cases hl
    next hji =>
        have hl' := h.bound j l hl
        have hne : l ≠ k := by
          rintro rfl
          rw [hdata] at hl'
          exact hji (Option.some.inj hl').symm
        rw [Function.update_of_ne hne]
        exact hl'
  · rw [Function.update_apply] at hl
    split at hl
    next =>
        rw [hsock] at hl
        cases hl
    next => exact h.userData l j hl
  · rw [Function.update_apply]
    split
    next => exact hsock
    next => exact h.pending holder l hl
  · rw [Function.update_apply]
    split
    next => exact ⟨hsock, (h.fresh l hl).2⟩
    next => exact h.fresh l hl

/-- The stack makes a socket that points to a satelite in use, or to none. -/
theorem TablesInv.create (h : TablesInv satelites sockets created held) (sock : StackSocket)
    (hsock : ∀ i, sock.userData = some i → i < connectionPoolSize) :
    TablesInv satelites (Function.update sockets created sock) (created + 1) held := by
  obtain ⟨hnone, hheld⟩ := h.fresh created le_rfl
  refine ⟨h.satelite, fun i k hk => ?_, fun k i hk => ?_, h.exclusive, fun holder k hk => ?_,
    fun k hk => ?_⟩
  · have hdata := h.bound i k hk
    have hne : k ≠ created := by
      rintro rfl
      rw [hnone] at hdata
      cases hdata
    rw [Function.update_of_ne hne]
    exact hdata
  · rw [Function.update_apply] at hk
    split at hk
    next => exact hsock i hk
    next => exact h.userData k i hk
  · have hne : k ≠ created := fun heq => hheld holder (heq ▸ hk)
    rw [Function.update_of_ne hne]
    exact h.pending holder k hk
  · have hne : k ≠ created := Nat.ne_of_gt hk
    rw [Function.update_of_ne hne]
    exact h.fresh k (Nat.le_of_succ_le hk)

/-- The number of a socket that is not yet in use may be left out. -/
theorem TablesInv.grow (h : TablesInv satelites sockets created held) :
    TablesInv satelites sockets (created + 1) held :=
  { h with fresh := fun k hk => h.fresh k (Nat.le_of_succ_le hk) }

theorem TablesInv.waiting (h : TablesInv satelites sockets created held) (holder : AcceptedHolder)
    {k : ℕ} (hk : k ∈ held holder) : (sockets k).userData = none ∧ k < created := by
  refine ⟨h.pending holder k hk, ?_⟩
  by_contra hle
  exact (h.fresh k (Nat.le_of_not_lt hle)).2 holder hk

/-- The connections that wait change hands. -/
theorem TablesInv.hold (h : TablesInv satelites sockets created held) (hexclusive : Exclusive held')
    (hheld : ∀ holder, ∀ k ∈ held' holder, (sockets k).userData = none ∧ k < created) :
    TablesInv satelites sockets created held' where
  satelite := h.satelite
  bound := h.bound
  userData := h.userData
  exclusive := hexclusive
  pending holder k hk := (hheld holder k hk).1
  fresh k hk := by
    refine ⟨(h.fresh k hk).1, fun holder hmem => ?_⟩
    exact Nat.not_lt.mpr hk (hheld holder k hmem).2

theorem acceptedHeld_plain {accepted : ℕ → List ℕ} {commands : List ArraysCommand}
    {c : ArraysCommand} (hc : c.accepted = none) :
    acceptedHeld accepted (commands ++ [c]) = acceptedHeld accepted commands := by
  funext holder
  cases holder with
  | ring i => rfl
  | command => simp [acceptedHeld, hc]

/-- The command that is taken leaves its connection to nobody. -/
theorem TablesInv.take {accepted : ℕ → List ℕ} {c : ArraysCommand} {rest : List ArraysCommand}
    (h : TablesInv satelites sockets created (acceptedHeld accepted (c :: rest))) :
    TablesInv satelites sockets created (acceptedHeld accepted rest) ∧
      ∀ k, c.accepted = some k → (sockets k).userData = none ∧ k < created ∧
        ∀ holder, k ∉ acceptedHeld accepted rest holder := by
  have hless : ∀ holder, (acceptedHeld accepted rest holder).Subperm
      (acceptedHeld accepted (c :: rest) holder) := by
    intro holder
    cases holder with
    | ring i => exact List.Subperm.refl _
    | command => exact ((List.sublist_cons_self c rest).filterMap _).subperm
  refine ⟨h.hold (h.exclusive.drop hless) fun holder k hk => ?_, fun k hk => ?_⟩
  · exact h.waiting holder ((hless holder).subset hk)
  have hfirst : acceptedHeld accepted (c :: rest) .command =
      k :: rest.filterMap ArraysCommand.accepted := List.filterMap_cons_some hk
  have hmem : k ∈ acceptedHeld accepted (c :: rest) .command := by
    rw [hfirst]
    exact List.mem_cons_self
  refine ⟨(h.waiting .command hmem).1, (h.waiting .command hmem).2, ?_⟩
  exact (h.exclusive.take hfirst (List.Subperm.refl _) fun holder _ => hless holder).2

end Tables

/-! ## Steps -/

/-- A command names a slot, and a selector or none. -/
structure ArraysCommand.Ok (c : ArraysCommand) : Prop where
  slot : ∀ i, c.ringsetIdx = some i → i < connectionPoolSize
  openSelector : ∀ i isStream z, c = .openSocket i isStream z → SelectorOk z
  ringSelector : ∀ i z k, c = .setSocketRing i z k → SelectorOk z
  select : ∀ i z, c = .setSocketSelect i z → SelectorOk z

/-- What the steps keep.  An index is computed from what a command, a ring or a descriptor holds,
so the bounds are about all places that an index is kept in. -/
structure ArraysInv (s : ArraysState) : Prop where
  tables : TablesInv s.satelites s.sockets s.created (acceptedHeld s.accepted s.commands)
  board : s.board.Ok
  commands : ∀ c ∈ s.commands, c.Ok
  free : ∀ i ∈ s.freeConnectionsRing.items, i < connectionPoolSize
  selectors : ∀ i ∈ s.selectorsRing.items, i < selectorPoolSize
  opened : ∀ i ∈ s.opened, i < selectorPoolSize
  clients : ∀ a, (s.clients a).Ok

theorem ArraysInv.inRange {s : ArraysState} (h : ArraysInv s) : s.InRange where
  accesses := h.board.accesses
  ready := h.board.ready
  exited a := (h.clients a).exited

section Steps

variable {around : Surroundings} {s t : ArraysState}

theorem ArraysInv.given (h : ArraysInv s) {z : ℤ} (hz : s.Given z) : SelectorOk z := by
  rcases hz with hz | ⟨i, hi, rfl⟩
  · exact .inl hz
  · exact .of_lt (h.opened i hi)

theorem ArraysInv.mark (h : ArraysInv s) (i : ℕ) (bit : ReadyBit) : ArraysInv (s.mark i bit) :=
  { h with board := h.board.mark (h.tables.satelite i) bit }

theorem ArraysInv.touch (h : ArraysInv s) {array : SharedArray} {index : ℤ}
    (hin : (⟨array, index⟩ : Access).InArray) : ArraysInv (s.touch array index) :=
  { h with board := h.board.touch hin }

theorem ArraysInv.touchSlot (h : ArraysInv s) {i : ℕ} (hslot : (s.satelites i).ringsetIdx ≠ -1) :
    ArraysInv (s.touch .sockets (s.satelites i).ringsetIdx) :=
  h.touch ((h.tables.satelite i).inArray hslot)

theorem ArraysInv.stop (h : ArraysInv s) : ArraysInv s.stop := { h with }

theorem ArraysInv.setClient (h : ArraysInv s) (a : ℕ) (c : ArraysClient × Board) (hc : c.1.Ok)
    (hb : c.2.Ok) : ArraysInv (s.setClient a c) :=
  { h with
    board := hb
    clients := by
      intro a'
      unfold ArraysState.setClient
      dsimp only
      rw [Function.update_apply]
      split
      next => exact hc
      next => exact h.clients a' }

theorem ArraysInv.enqueue (h : ArraysInv s) {c : ArraysCommand} (hc : c.Ok)
    (hnone : c.accepted = none) (room : Bool) : ArraysInv (s.enqueue room c) := by
  unfold ArraysState.enqueue
  split
  · refine { h with tables := ?_, commands := ?_ }
    · dsimp only
      rw [acceptedHeld_plain hnone]
      exact h.tables
    · intro c' hc'
      rcases List.mem_append.mp hc' with hc' | hc'
      · exact h.commands c' hc'
      · rwa [List.mem_singleton.mp hc']
  · exact h

theorem ArraysInv.dataAvailable (h : ArraysInv s) (socket : Option ℕ) (submits : Bool) :
    ArraysInv (s.dataAvailable socket submits) := by
  unfold ArraysState.dataAvailable
  split
  · exact h
  · split
    · exact h
    · split
      · exact h.stop
      · split
        · exact h.mark _ _
        · exact h

theorem ArraysInv.transmissionOpportunity (h : ArraysInv s) {k : ℕ}
    (hslot : (s.sockets k).listening ∨ s.Slotted k) (exhausted : Bool) :
    ArraysInv (s.transmissionOpportunity k exhausted) := by
  unfold ArraysState.transmissionOpportunity
  split
  next => exact h
  next i hi =>
      split
      next => exact h.stop
      next hlisten =>
          have htouch := h.touchSlot (hslot.resolve_left hlisten i hi)
          dsimp only
          split
          · exact htouch.mark i .writable
          · exact htouch

/-- A socket that a satelite has points to a satelite with a slot. -/
theorem ArraysInv.slotted (h : ArraysInv s) {i k : ℕ} (hk : (s.satelites i).socket = some k) :
    s.Slotted k := by
  intro j hj
  rw [h.tables.bound i k hk] at hj
  obtain rfl := Option.some.inj hj
  refine (h.tables.satelite i).bound ?_
  rw [hk]
  exact Option.some_ne_none k

/-- The slot of a command is in the arrays. -/
theorem slot_inArray {i : ℕ} (hi : i < connectionPoolSize) :
    (⟨.satelites, i⟩ : Access).InArray ∧ (⟨.sockets, i⟩ : Access).InArray :=
  ⟨⟨Int.natCast_nonneg i, Int.ofNat_lt.mpr hi⟩, Int.natCast_nonneg i, Int.ofNat_lt.mpr hi⟩

/-- A satelite that is given a socket. -/
theorem SateliteData.Ok.of_slot {i k : ℕ} {z : ℤ} (hi : i < connectionPoolSize)
    (hz : SelectorOk z) : (⟨some k, i, z⟩ : SateliteData).Ok i := by
  have hslot : (i : ℤ) ≠ -1 := by
    omega
  exact ⟨.inr ⟨rfl, hi⟩, hz, fun _ => hslot, fun _ => hslot⟩

theorem ArraysInv.handle (h : ArraysInv s) {c : ArraysCommand} (hc : c.Ok)
    (hwaiting : ∀ k, c.accepted = some k → (s.sockets k).userData = none ∧ k < s.created ∧
      ∀ holder, k ∉ acceptedHeld s.accepted s.commands holder)
    (hok : s.SelectOk c) (answer : ArraysAnswer) : ArraysInv (s.handle answer c) := by
  unfold ArraysState.handle
  cases c with
  | openSocket i isStream parentIdx =>
      have hi := hc.slot i rfl
      dsimp only
      split
      · refine ArraysInv.touch ?_ (slot_inArray hi).2
        obtain ⟨hnone, hheld⟩ := h.tables.fresh s.created le_rfl
        refine { h with tables := ?_ }
        refine (h.tables.grow).bind hi (.of_slot hi (hc.openSelector i isStream parentIdx rfl)) rfl
          rfl hnone hheld (Nat.lt_succ_self _)
      · exact h
  | socketConnectBind i isConnect =>
      dsimp only
      split
      · exact h
      · split
        · exact h.touch (slot_inArray (hc.slot i rfl)).2
        · exact h
  | listen i =>
      dsimp only
      split
      · exact h.stop
      · split
        · exact { h with tables := h.tables.setSocket _ _ rfl }
        · exact h
  | close i =>
      dsimp only
      split
      next => exact h
      next k hk =>
          have hi := hc.slot i rfl
          refine ArraysInv.touch ?_ (slot_inArray hi).2
          refine { h with tables := h.tables.unbind hk rfl, free := ?_ }
          intro j hj
          replace hj : j ∈ (s.freeConnectionsRing.enqueueBulk connectionPoolSize [i]).2.items := hj
          rw [Ring.items_enqueueBulk] at hj
          split at hj
          · exact h.free j hj
          · rcases List.mem_append.mp hj with hj | hj
            · exact h.free j hj
            · rwa [List.mem_singleton.mp hj]
  | txKick i =>
      dsimp only
      split
      next => exact h
      next k hk => exact h.transmissionOpportunity (.inr (h.slotted hk)) _
  | rxKick i => exact h.dataAvailable _ _
  | setSocketRing i parentIdx k =>
      have hi := hc.slot i rfl
      obtain ⟨hnone, hcreated, hheld⟩ := hwaiting k rfl
      have hz : SelectorOk (if parentIdx ≠ -1 then parentIdx else (s.satelites i).parentIdx) := by
        split
        · exact hc.ringSelector i parentIdx k rfl
        · exact (h.tables.satelite i).parent
      refine ArraysInv.mark (ArraysInv.mark (ArraysInv.dataAvailable (ArraysInv.touch ?_
        (slot_inArray hi).2) _ _) i _) i _
      exact { h with tables := h.tables.bind hi (.of_slot hi hz) rfl rfl hnone hheld hcreated }
  | setSocketSelect i select =>
      refine ArraysInv.mark (ArraysInv.mark (ArraysInv.dataAvailable ?_ _ _) i _) i _
      refine { h with tables := h.tables.setSatelite i _ ?_ rfl }
      have hd := h.tables.satelite i
      exact ⟨hd.ringset, hc.select i select rfl, fun hne => hok.resolve_left hne, hd.bound⟩
  | txPoolEmpty i =>
      dsimp only
      split
      next => exact h
      next k hk =>
          split
          next => exact h
          next =>
              have hlist : ArraysInv { s with buffersAvailable := s.buffersAvailable ++ [k] } :=
                { h with }
              split
              next => exact hlist
              next =>
                  refine hlist.touchSlot ((h.tables.satelite i).bound ?_)
                  rw [hk]
                  exact Option.some_ne_none k
  | setsockopt i => exact h
  | shutdown i =>
      dsimp only
      split
      · exact h
      · split
        · exact { h with tables := h.tables.setSocket _ _ rfl }
        · exact h
  | decline k =>
      refine { h with tables := h.tables.setSocket k _ ?_ }
      exact (hwaiting k rfl).1.symm

theorem ArraysInv.processCommand (h : ArraysInv s) {c : ArraysCommand} {rest : List ArraysCommand}
    (hcommands : s.commands = c :: rest) (hok : s.SelectOk c) (answer : ArraysAnswer) :
    ArraysInv (ArraysState.processCommand { s with commands := rest } answer c) := by
  have hc : c.Ok := h.commands c (hcommands ▸ List.mem_cons_self)
  have htables := h.tables
  rw [hcommands] at htables
  obtain ⟨hrest, hwaiting⟩ := htables.take
  have htaken : ArraysInv { s with commands := rest } :=
    { h with
      tables := hrest
      commands := fun c' hc' => h.commands c' (hcommands ▸ List.mem_cons_of_mem c hc') }
  have hselect : ∀ t : ArraysState, t.satelites = s.satelites → t.SelectOk c := by
    intro t ht
    cases c with
    | setSocketSelect i select =>
        unfold ArraysState.SelectOk
        rw [ht]
        exact hok
    | _ => trivial
  unfold ArraysState.processCommand
  split
  next => exact htaken.handle hc hwaiting (hselect _ rfl) answer
  next i hi =>
      have htouch := htaken.touch (slot_inArray (hc.slot i hi)).1
      exact htouch.handle hc hwaiting (hselect _ rfl) answer

/-- A connection goes from the ring of its listener to a command. -/
theorem ArraysInv.handOver (h : ArraysInv s) {sock k : ℕ} {rest : List ℕ} {c : ArraysCommand}
    (haccepted : s.accepted sock = k :: rest) (hc : c.Ok) (hk : c.accepted = some k)
    (room : Bool) :
    ArraysInv (ArraysState.enqueue { s with accepted := Function.update s.accepted sock rest }
      room c) := by
  have hring : ∀ i, (Function.update s.accepted sock rest i).Subperm (s.accepted i) := by
    intro i
    rw [Function.update_apply]
    split
    next hi =>
        rw [hi, haccepted]
        exact (List.sublist_cons_self k rest).subperm
    next => exact List.Subperm.refl _
  unfold ArraysState.enqueue
  split
  · refine { h with tables := ?_, commands := ?_ }
    · have hcommand : acceptedHeld (Function.update s.accepted sock rest) (s.commands ++ [c])
          .command = acceptedHeld s.accepted s.commands .command ++ [k] := by
        simp [acceptedHeld, hk]
      refine h.tables.hold ?_ fun holder l hl => ?_
      · refine h.tables.exclusive.hand (i := .ring sock) (j := .command) (a := k) nofun haccepted
          ?_ ?_ ?_
        · simp only [acceptedHeld, Function.update_self]
          exact List.Subperm.refl _
        · rw [hcommand]
          exact (List.perm_append_singleton _ _).subperm
        · intro holder hne hcmd
          cases holder with
          | ring i => exact hring i
          | command => exact absurd rfl hcmd
      · cases holder with
        | ring i => exact h.tables.waiting (.ring i) ((hring i).subset hl)
        | command =>
            rw [hcommand] at hl
            rcases List.mem_append.mp hl with hl | hl
            · exact h.tables.waiting .command hl
            · rw [List.mem_singleton.mp hl]
              refine h.tables.waiting (.ring sock) ?_
              rw [acceptedHeld, haccepted]
              exact List.mem_cons_self
    · intro c' hc'
      rcases List.mem_append.mp hc' with hc' | hc'
      · exact h.commands c' hc'
      · rwa [List.mem_singleton.mp hc']
  · refine { h with tables := ?_ }
    have hless : ∀ holder, (acceptedHeld (Function.update s.accepted sock rest) s.commands
        holder).Subperm (acceptedHeld s.accepted s.commands holder) := by
      intro holder
      cases holder with
      | ring i => exact hring i
      | command => exact List.Subperm.refl _
    refine h.tables.hold (h.tables.exclusive.drop hless) fun holder l hl => ?_
    exact h.tables.waiting holder ((hless holder).subset hl)

/-- A new connection is put on the ring of its listener. -/
theorem ArraysInv.postAccepted (h : ArraysInv s) (i : ℕ) :
    ArraysInv { ArraysState.setSocket { s with created := s.created + 1 } s.created
      ⟨true, false, none⟩ with
      accepted := Function.update s.accepted i (s.accepted i ++ [s.created]) } := by
  have hcreate := h.tables.create ⟨true, false, none⟩ nofun
  obtain ⟨hnone, hheld⟩ := h.tables.fresh s.created le_rfl
  have hself : (Function.update s.sockets s.created ⟨true, false, none⟩ s.created).userData =
      none := by
    rw [Function.update_self]
  refine { h with tables := hcreate.hold ?_ fun holder k hk => ?_ }
  · refine hcreate.exclusive.give hheld (j := .ring i) ?_ fun holder hne => ?_
    · simp only [acceptedHeld, Function.update_self]
      exact (List.perm_append_singleton _ _).subperm
    · cases holder with
      | ring j =>
          have hj : j ≠ i := fun hj => hne (by rw [hj])
          simp only [acceptedHeld, Function.update_of_ne hj]
          exact List.Subperm.refl _
      | command => exact List.Subperm.refl _
  · cases holder with
    | ring j =>
        simp only [acceptedHeld, Function.update_apply] at hk
        split at hk
        next =>
            rcases List.mem_append.mp hk with hk | hk
            · exact hcreate.waiting (.ring i) hk
            · rw [List.mem_singleton.mp hk]
              exact ⟨hself, Nat.lt_succ_self _⟩
        next => exact hcreate.waiting (.ring j) hk
    | command => exact hcreate.waiting .command hk

/-- A slot is taken from the free ones. -/
theorem ArraysInv.takeSlot (h : ArraysInv s) {i : ℕ} {ring : Ring ℕ (connectionPoolSize - 1)}
    (hring : s.freeConnectionsRing.dequeue = some (i, ring)) :
    i < connectionPoolSize ∧ ArraysInv { s with freeConnectionsRing := ring } := by
  have hitems := (Ring.dequeue_eq_some_iff _ _ _).mp hring
  refine ⟨h.free i (hitems ▸ List.mem_cons_self), { h with free := fun j hj => ?_ }⟩
  exact h.free j (hitems ▸ List.mem_cons_of_mem i hj)

theorem ArraysInv.step_openSelect (h : ArraysInv s)
    (ht : (arraysMachine around).step s .openSelect = some t) : ArraysInv t := by
  simp only [arraysMachine] at ht
  split at ht
  next =>
      cases ht
      exact h
  next i ring hring =>
      cases ht
      have hitems := (Ring.dequeue_eq_some_iff _ _ _).mp hring
      refine { h with selectors := fun j hj => ?_, opened := fun j hj => ?_ }
      · exact h.selectors j (hitems ▸ List.mem_cons_of_mem i hj)
      · rcases List.mem_cons.mp hj with rfl | hj
        · exact h.selectors j (hitems ▸ List.mem_cons_self)
        · exact h.opened j hj

theorem ArraysInv.step_setSelectorMode (h : ArraysInv s) {a selector : ℕ} {mode : Bool}
    (ht : (arraysMachine around).step s (.setSelectorMode a selector mode) = some t) :
    ArraysInv t := by
  simp only [arraysMachine] at ht
  split at ht
  next =>
      cases ht
      exact h.setClient a _ ⟨(h.clients a).exited, (h.clients a).select⟩ h.board
  next => cases ht

theorem ArraysInv.step_openSocket (h : ArraysInv s) {a : ℕ} {isStream : Bool} {parent : ℤ}
    {gotCommand room : Bool}
    (ht : (arraysMachine around).step s (.openSocket a isStream parent gotCommand room) = some t) :
    ArraysInv t := by
  simp only [arraysMachine] at ht
  split at ht
  next hready =>
      have hparent := h.given hready.2
      split at ht
      next =>
          cases ht
          exact h
      next i ring hring =>
          obtain ⟨hi, htaken⟩ := h.takeSlot hring
          split at ht
          next =>
              cases ht
              refine (htaken.enqueue (c := .openSocket i isStream parent) ?_ rfl true).setClient
                a _ ((h.clients a).setDescr i _ hparent) h.board
              refine ⟨?_, ?_, nofun, nofun⟩
              · rintro _ ⟨rfl⟩
                exact hi
              · rintro _ _ _ ⟨rfl⟩
                exact hparent
          next =>
              cases ht
              exact htaken
  next => cases ht

theorem ArraysInv.step_setSocketSelect (h : ArraysInv s) {a sock : ℕ} {select : ℤ}
    {gotCommand room : Bool}
    (ht : (arraysMachine around).step s (.setSocketSelect a sock select gotCommand room) = some t) :
    ArraysInv t := by
  simp only [arraysMachine] at ht
  split at ht
  next hready =>
      have hselect := h.given hready.2.2
      split at ht
      next =>
          cases ht
          refine (h.enqueue (c := .setSocketSelect sock select) ?_ rfl true).setClient a _
            ((h.clients a).setDescr sock _ hselect) h.board
          refine ⟨?_, nofun, nofun, ?_⟩
          · rintro _ ⟨rfl⟩
            exact hready.2.1
          · rintro _ _ ⟨rfl⟩
            exact hselect
      next =>
          cases ht
          exact h
  next => cases ht

theorem ArraysInv.step_close (h : ArraysInv s) {a sock : ℕ} {gotCommand room : Bool}
    (hok : arraysOk s (.close a sock gotCommand room))
    (ht : (arraysMachine around).step s (.close a sock gotCommand room) = some t) :
    ArraysInv t := by
  simp only [arraysMachine] at ht
  split at ht
  next hready =>
      split at ht
      next hgot =>
          cases ht
          obtain ⟨hc, hb⟩ := (h.clients a).removeSocketFromCache h.board (hok hgot)
          refine (h.enqueue (c := .close sock) ⟨?_, nofun, nofun, nofun⟩ rfl room).setClient a _
            (hc.setDescr sock _ (.inl rfl)) hb
          rintro _ ⟨rfl⟩
          exact hready.2
      next =>
          cases ht
          exact h
  next => cases ht

theorem ArraysInv.step_fdclear (h : ArraysInv s) {a sock : ℕ} (hok : arraysOk s (.fdclear a sock))
    (ht : (arraysMachine around).step s (.fdclear a sock) = some t) : ArraysInv t := by
  simp only [arraysMachine] at ht
  split at ht
  next =>
      cases ht
      obtain ⟨hc, hb⟩ := (h.clients a).removeSocketFromCache h.board hok
      exact h.setClient a _ hc hb
  next => cases ht

theorem ArraysInv.step_shutdown (h : ArraysInv s) {a sock : ℕ} {gotCommand room : Bool}
    (hok : arraysOk s (.shutdown a sock gotCommand room))
    (ht : (arraysMachine around).step s (.shutdown a sock gotCommand room) = some t) :
    ArraysInv t := by
  simp only [arraysMachine] at ht
  split at ht
  next hready =>
      split at ht
      next hgot =>
          cases ht
          obtain ⟨hc, hb⟩ := (h.clients a).removeSocketFromCache h.board (hok hgot)
          refine (h.enqueue (c := .shutdown sock) ⟨?_, nofun, nofun, nofun⟩ rfl
            room).setClient a _ hc hb
          rintro _ ⟨rfl⟩
          exact hready.2
      next =>
          cases ht
          exact h
  next => cases ht

theorem ArraysInv.step_enqueue (h : ArraysInv s) {c : ArraysCommand}
    (ht : (arraysMachine around).step s (.enqueue c) = some t) : ArraysInv t := by
  simp only [arraysMachine] at ht
  split at ht
  next hplain =>
      cases ht
      refine h.enqueue ?_ ?_ true
      · cases c <;> first
          | exact ⟨fun _ heq => Option.some.inj heq ▸ hplain, nofun, nofun, nofun⟩
          | exact hplain.elim
      · cases c <;> first
          | rfl
          | exact hplain.elim
  next => cases ht

theorem ArraysInv.step_clearReady (h : ArraysInv s) {sock : ℕ} {bit : ReadyBit}
    (ht : (arraysMachine around).step s (.clearReady sock bit) = some t) : ArraysInv t := by
  simp only [arraysMachine] at ht
  split at ht
  next =>
      cases ht
      exact { h with board := ⟨h.board.accesses, h.board.ready⟩ }
  next => cases ht

theorem ArraysInv.step_updateLocalReadyCache (h : ArraysInv s) {a sock : ℕ} {bit : ReadyBit}
    (ht : (arraysMachine around).step s (.updateLocalReadyCache a sock bit) = some t) :
    ArraysInv t := by
  simp only [arraysMachine] at ht
  split at ht
  next =>
      cases ht
      obtain ⟨hc, hb⟩ := (h.clients a).updateLocalReadyCache h.board bit
      exact h.setClient a _ hc hb
  next => cases ht

theorem ArraysInv.step_repost (h : ArraysInv s) {a sock : ℕ}
    (ht : (arraysMachine around).step s (.repost a sock) = some t) : ArraysInv t := by
  simp only [arraysMachine] at ht
  split at ht
  next hready =>
      split at ht
      next =>
          cases ht
          exact h
      next hselect =>
          cases ht
          have hin := (((h.clients a).select sock).inArray hselect).2
          refine { h with board := (h.board.touch hin).post ?_ _ }
          rw [readySocket_ringidxReadyMask hready.2]
          exact hready.2
  next => cases ht

theorem ArraysInv.step_accept (h : ArraysInv s) {a sock : ℕ} {room : Bool}
    (ht : (arraysMachine around).step s (.accept a sock room) = some t) : ArraysInv t := by
  simp only [arraysMachine] at ht
  split at ht
  next =>
      split at ht
      next => cases ht
      next k rest haccepted =>
          split at ht
          next =>
              cases ht
              exact h.handOver (c := .decline k) haccepted ⟨nofun, nofun, nofun, nofun⟩ rfl
                room
          next i ring hring =>
              cases ht
              obtain ⟨hi, htaken⟩ := h.takeSlot hring
              refine (htaken.handOver (c := .setSocketRing i (-1) k) haccepted ?_ rfl
                room).setClient a _ ?_ h.board
              · refine ⟨?_, nofun, ?_, nofun⟩
                · rintro _ ⟨rfl⟩
                  exact hi
                · rintro _ _ _ ⟨rfl⟩
                  exact .inl rfl
              · exact (h.clients a).setDescr i _ ((h.clients a).select i)
  next => cases ht

theorem ArraysInv.step_select (h : ArraysInv s) {a selector : ℕ}
    (ht : (arraysMachine around).step s (.select a selector) = some t) : ArraysInv t := by
  simp only [arraysMachine] at ht
  split at ht
  next hready =>
      cases ht
      have hin := ((SelectorOk.of_lt (h.opened selector hready.2)).inArray (by omega)).2
      have hentries : ∀ e ∈ ((s.board.ready selector).dequeueBurst
          (s.board.ready selector).count).1, readySocket e < connectionPoolSize := by
        intro e he
        exact h.board.ready selector e (List.mem_of_mem_take he)
      have hboard : Board.Ok { s.board.touch .clientSelectors selector with
          ready := Function.update s.board.ready selector ((s.board.ready
            selector).dequeueBurst (s.board.ready selector).count).2 } := by
        refine ⟨(h.board.touch hin).accesses, fun z e he => ?_⟩
        dsimp only at he
        rw [Function.update_apply] at he
        split at he
        next => exact h.board.ready selector e (List.mem_of_mem_drop he)
        next => exact h.board.ready z e he
      obtain ⟨hc, hb⟩ := (h.clients a).selectEntries hboard hentries
      exact h.setClient a _ hc hb
  next => cases ht

theorem ArraysInv.step_processCommand (h : ArraysInv s) {answer : ArraysAnswer}
    (hok : arraysOk s (.processCommand answer))
    (ht : (arraysMachine around).step s (.processCommand answer) = some t) : ArraysInv t := by
  simp only [arraysMachine] at ht
  split at ht
  next c rest hrunning hcommands =>
      cases ht
      exact h.processCommand hcommands (hok c (hcommands ▸ rfl)) answer
  next => cases ht

theorem ArraysInv.step_transmissionOpportunity (h : ArraysInv s) {k : ℕ} {exhausted : Bool}
    (hok : arraysOk s (.transmissionOpportunity k exhausted))
    (ht : (arraysMachine around).step s (.transmissionOpportunity k exhausted) = some t) :
    ArraysInv t := by
  simp only [arraysMachine] at ht
  split at ht
  next =>
      cases ht
      exact h.transmissionOpportunity hok exhausted
  next => cases ht

theorem ArraysInv.step_dataAvailable (h : ArraysInv s) {k : ℕ} {submits : Bool}
    (ht : (arraysMachine around).step s (.dataAvailable k submits) = some t) : ArraysInv t := by
  simp only [arraysMachine] at ht
  split at ht
  next =>
      cases ht
      exact h.dataAvailable _ _
  next => cases ht

theorem ArraysInv.step_transmitted (h : ArraysInv s) {k : ℕ} (hok : arraysOk s (.transmitted k))
    (ht : (arraysMachine around).step s (.transmitted k) = some t) : ArraysInv t := by
  simp only [arraysMachine] at ht
  split at ht
  next =>
      split at ht
      next =>
          cases ht
          exact h
      next i hi =>
          cases ht
          exact h.touchSlot (hok i hi)
  next => cases ht

theorem ArraysInv.step_socketFatal (h : ArraysInv s) {k : ℕ}
    (ht : (arraysMachine around).step s (.socketFatal k) = some t) : ArraysInv t := by
  simp only [arraysMachine] at ht
  split at ht
  next =>
      split at ht
      next =>
          cases ht
          exact h
      next i hi =>
          cases ht
          exact h.mark i .closed
  next => cases ht

theorem ArraysInv.step_onAccept (h : ArraysInv s) {k : ℕ} {gotCommand room : Bool}
    (ht : (arraysMachine around).step s (.onAccept k gotCommand room) = some t) : ArraysInv t := by
  simp only [arraysMachine] at ht
  split at ht
  next =>
      split at ht
      next =>
          cases ht
          exact { h with tables := h.tables.create _ fun i hi => h.tables.userData k i hi }
      next =>
          cases ht
          exact h.stop
      next i hi =>
          split at ht
          next =>
              cases ht
              exact (h.postAccepted i).mark i .readable
          next =>
              cases ht
              exact { h with tables := h.tables.create _ nofun }
  next => cases ht

theorem ArraysInv.step_buffersAvailable (h : ArraysInv s) {stays : Bool}
    (ht : (arraysMachine around).step s (.buffersAvailable stays) = some t) : ArraysInv t := by
  simp only [arraysMachine] at ht
  split at ht
  next k rest hrunning hlist =>
      split at ht
      next =>
          cases ht
          exact h.stop
      next i hi =>
          split at ht
          next =>
              cases ht
              exact h.stop
          next k' hk' =>
              have hslot : (s.satelites i).ringsetIdx ≠ -1 := by
                refine (h.tables.satelite i).bound ?_
                rw [hk']
                exact Option.some_ne_none k'
              cases ht
              have htouch : ArraysInv (if (s.sockets k').isStream then s
                  else s.touch .sockets (s.satelites i).ringsetIdx) := by
                split
                · exact h
                · exact h.touchSlot hslot
              have hmark := htouch.mark i .writable
              split
              · exact hmark
              · exact { hmark with }
  next => cases ht

/-- One step, whichever it is. -/
theorem arraysInv_step {step : ArraysStep} (h : ArraysInv s) (hok : arraysOk s step)
    (ht : (arraysMachine around).step s step = some t) : ArraysInv t := by
  cases step with
  | openSelect => exact h.step_openSelect ht
  | setSelectorMode _ _ _ => exact h.step_setSelectorMode ht
  | openSocket _ _ _ _ _ => exact h.step_openSocket ht
  | setSocketSelect _ _ _ _ _ => exact h.step_setSocketSelect ht
  | close _ _ _ _ => exact h.step_close hok ht
  | fdclear _ _ => exact h.step_fdclear hok ht
  | shutdown _ _ _ _ => exact h.step_shutdown hok ht
  | enqueue _ => exact h.step_enqueue ht
  | clearReady _ _ => exact h.step_clearReady ht
  | updateLocalReadyCache _ _ _ => exact h.step_updateLocalReadyCache ht
  | repost _ _ => exact h.step_repost ht
  | accept _ _ _ => exact h.step_accept ht
  | select _ _ => exact h.step_select ht
  | processCommand _ => exact h.step_processCommand hok ht
  | transmissionOpportunity _ _ => exact h.step_transmissionOpportunity hok ht
  | dataAvailable _ _ => exact h.step_dataAvailable ht
  | transmitted _ => exact h.step_transmitted hok ht
  | socketFatal _ => exact h.step_socketFatal ht
  | onAccept _ _ _ => exact h.step_onAccept ht
  | buffersAvailable _ => exact h.step_buffersAvailable ht

end Steps

/-- The numbers that fit a ring are below its size. -/
theorem mem_enqueueBurst_range {cap n i : ℕ}
    (hi : i ∈ ((Ring.empty : Ring ℕ cap).enqueueBurst (List.range n)).items) : i < n := by
  simp only [Ring.enqueueBurst, Ring.items_empty, List.nil_append] at hi
  exact List.mem_range.mp (List.mem_of_mem_take hi)

theorem arraysInv_init (around : Surroundings) : ArraysInv (arraysMachine around).init where
  tables :=
    { satelite _ := ⟨.inl rfl, .inl rfl, fun hne => absurd rfl hne, fun hne => absurd rfl hne⟩
      bound _ _ := nofun
      userData _ _ := nofun
      exclusive := by
        refine .of_forall_nil fun holder => ?_
        cases holder with
        | ring i => rfl
        | command => rfl
      pending holder k hk := by
        cases holder with
        | ring i => cases hk
        | command => cases hk
      fresh k _ := by
        refine ⟨rfl, fun holder hk => ?_⟩
        cases holder with
        | ring i => cases hk
        | command => cases hk }
  board := ⟨nofun, fun _ _ => nofun⟩
  commands _ := nofun
  free _ hi := mem_enqueueBurst_range hi
  selectors _ hi := mem_enqueueBurst_range hi
  opened _ := nofun
  clients _ := ⟨rfl, fun _ => .inl rfl⟩

instance (s : ArraysState) (k : ℕ) : Decidable (s.Slotted k) :=
  inferInstanceAs (Decidable (∀ i ∈ (s.sockets k).userData, (s.satelites i).ringsetIdx ≠ -1))

instance (s : ArraysState) : ∀ c, Decidable (s.SelectOk c)
  | .setSocketSelect i select =>
      inferInstanceAs (Decidable (select = -1 ∨ (s.satelites i).ringsetIdx ≠ -1))
  | .openSocket _ _ _ | .socketConnectBind _ _ | .listen _ | .close _ | .txKick _ | .rxKick _
  | .setSocketRing _ _ _ | .txPoolEmpty _ | .setsockopt _ | .shutdown _ | .decline _ =>
      .isTrue trivial

instance (s : ArraysState) : ∀ step, Decidable (arraysOk s step)
  | .close a sock gotCommand _ =>
      inferInstanceAs (Decidable (gotCommand = true → ((s.clients a).descr sock).select ≠ -1))
  | .fdclear a sock => inferInstanceAs (Decidable (((s.clients a).descr sock).select ≠ -1))
  | .shutdown a sock gotCommand _ =>
      inferInstanceAs (Decidable (gotCommand = true → ((s.clients a).descr sock).select ≠ -1))
  | .processCommand _ => inferInstanceAs (Decidable (∀ c ∈ s.commands.head?, s.SelectOk c))
  | .transmissionOpportunity k _ =>
      inferInstanceAs (Decidable ((s.sockets k).listening = true ∨ s.Slotted k))
  | .transmitted k => inferInstanceAs (Decidable (s.Slotted k))
  | .openSelect | .setSelectorMode _ _ _ | .openSocket _ _ _ _ _ | .setSocketSelect _ _ _ _ _
  | .enqueue _ | .clearReady _ _ | .updateLocalReadyCache _ _ _ | .repost _ _ | .accept _ _ _
  | .select _ _ | .dataAvailable _ _ | .socketFatal _ | .onAccept _ _ _ | .buffersAvailable _ =>
      .isTrue trivial

theorem Board.accesses_subset_mark (b : Board) (d : SateliteData) (bit : ReadyBit) :
    b.accesses ⊆ (b.mark d bit).accesses := by
  unfold Board.mark
  split
  · exact List.Subset.refl _
  · split
    · exact List.subset_cons_self _ _
    · split
      · exact List.subset_cons_self _ _
      · exact List.Subset.trans (List.subset_cons_self _ _) (List.subset_cons_self _ _)

/-- Whatever the flag reads as, it is looked at. -/
theorem Board.mem_accesses_mark (b : Board) {d : SateliteData} {bit : ReadyBit}
    (hparent : d.parentIdx ≠ -1) (hbit : bit ≠ .closed) :
    ⟨.sockets, d.ringsetIdx⟩ ∈ (b.mark d bit).accesses := by
  unfold Board.mark
  rw [if_neg hparent, if_neg hbit]
  split
  · exact List.mem_cons_self
  · exact List.mem_cons_of_mem _ List.mem_cons_self

/-- SET_SOCKET_SELECT with a selector uses the slot of the satelite, or what stands there instead of
one, also when there is no socket. -/
theorem ArraysState.mem_accesses_setSocketSelect (s : ArraysState) (i : ℕ) {select : ℤ}
    (hselect : select ≠ -1) (hsocket : (s.satelites i).socket = none) (answer : ArraysAnswer) :
    ⟨.sockets, (s.satelites i).ringsetIdx⟩ ∈
      (s.processCommand answer (.setSocketSelect i select)).board.accesses := by
  have hmarks (t : ArraysState) {d : SateliteData} (ht : t.satelites i = d) (hd : d.socket = none)
      (hparent : d.parentIdx ≠ -1) : ⟨.sockets, d.ringsetIdx⟩ ∈
        (((t.dataAvailable (t.satelites i).socket answer.submits).mark i .writable).mark i
          .readable).board.accesses := by
    subst ht
    rw [hd]
    refine Board.accesses_subset_mark _ _ _ ?_
    exact Board.mem_accesses_mark t.board hparent nofun
  exact hmarks ((s.touch .satelites i).setSatelite i { s.satelites i with parentIdx := select })
    (d := { s.satelites i with parentIdx := select }) (Function.update_self _ _ _) hsocket hselect

set_option maxRecDepth 20000 in
/-- A selector is set for a socket after its close: the flag in front of the first socket is used,
whatever it reads as. -/
theorem ArraysState.select_after_close_uses_sockets (around : Surroundings) :
    ∃ s, (arraysMachine around).run
      [.openSelect, .openSocket 0 true 0 true true, .processCommand ⟨true, false, false⟩,
        .close 0 0 true true, .processCommand ⟨true, false, false⟩,
        .setSocketSelect 0 0 0 true true, .processCommand ⟨true, false, false⟩] = some s ∧
      ⟨.sockets, -1⟩ ∈ s.board.accesses ∧ ¬ s.InRange := by
  obtain ⟨s, hrun, hview⟩ : ∃ s, (arraysMachine around).run
      [.openSelect, .openSocket 0 true 0 true true, .processCommand ⟨true, false, false⟩,
        .close 0 0 true true, .processCommand ⟨true, false, false⟩,
        .setSocketSelect 0 0 0 true true] = some s ∧
      (s.running, s.commands, s.satelites 0) = (true, [.setSocketSelect 0 0], ⟨none, -1, -1⟩) :=
    ⟨_, rfl, rfl⟩
  obtain ⟨hrunning, hcommands, hsatelite⟩ := Prod.mk.inj hview |>.imp_right Prod.mk.inj
  refine ⟨ArraysState.processCommand { s with commands := [] } ⟨true, false, false⟩
    (.setSocketSelect 0 0), ?_, ?_⟩
  · have happend := (arraysMachine around).runFrom_append (arraysMachine around).init
      [.openSelect, .openSocket 0 true 0 true true, .processCommand ⟨true, false, false⟩,
        .close 0 0 true true, .processCommand ⟨true, false, false⟩,
        .setSocketSelect 0 0 0 true true] [.processCommand ⟨true, false, false⟩]
    refine happend.trans ?_
    rw [show (arraysMachine around).runFrom _ _ = some s from hrun]
    simp [arraysMachine, hrunning, hcommands]
  · have haccess := ArraysState.mem_accesses_setSocketSelect { s with commands := [] } 0
      (show (0 : ℤ) ≠ -1 from nofun) (congrArg SateliteData.socket hsatelite) ⟨true, false, false⟩
    rw [show ({ s with commands := [] } : ArraysState).satelites 0 = _ from hsatelite] at haccess
    refine ⟨haccess, fun h => ?_⟩
    have hin := (h.accesses _ haccess).1
    exact absurd hin (by decide)

end IpAugenblick
