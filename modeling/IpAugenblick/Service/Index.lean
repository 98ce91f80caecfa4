/-
# One connection index

A connection index is taken from `free_connections_ring` by the client that opens a socket or
accepts one, and goes back to it when the service processes its CLOSE command.  Its state is
spread over three places: the `ipaugenblick_socket_t` that the service and every client share,
the satellite data of the service, and the `local_socket_descriptor_t` of each client process.

`indexMachine` runs one index through any number of owners.  `log` collects what an owner
observes: the entries posted to the ready rings, the TX_KICK commands sent, and the results of
`ipaugenblick_getsockname` and `ipaugenblick_is_connected`.
-/

import IpAugenblick.Rx.Wakeup
import IpAugenblick.Stack.Sock

namespace IpAugenblick

open Lib

/-- What an owner of the index observes. -/
inductive Observation
  | /-- An entry of the index is put into the ready ring of a selector. -/
    posted (selector : ℕ) (bit : ReadyBit)
  | /-- TX_KICK is sent. -/
    txKick
  | /-- The result of `ipaugenblick_getsockname`. -/
    sockname (addr : ℕ × ℕ)
  | /-- The result of `ipaugenblick_is_connected`. -/
    connected (b : Bool)
  deriving DecidableEq, Repr

inductive IndexCommand
  | openSocket (type : SockType) (parent : Option ℕ)
  | connect
  | bind
  | listen
  | close
  | txKick
  | rxKick
  | setSocketRing
  | setSocketSelect (select : Option ℕ)
  | txPoolEmpty
  deriving DecidableEq, Repr

/-- What becomes of a command that a client wants to send. -/
inductive Sending
  | /-- `ipaugenblick_get_free_command_buf` returned NULL. -/
    noBuf
  | /-- The command ring is full. -/
    ringFull
  | queued
  deriving DecidableEq, Repr

/-- No half-delivered chain. -/
def Shadow.cleared : Shadow where
  shadow := none
  shadowNext := none
  shadowLenRemainder := 0
  shadowLenDelievered := 0

/-- `local_socket_descriptor_t` of the index in one process, without its place in the cache of
ready sockets. -/
structure LocalDescr where
  select : Option ℕ
  anyEventReceived : Bool
  localAddr : ℕ × ℕ
  remoteAddr : ℕ × ℕ
  localCache : Ring ℕ localCacheCapacity
  shadow : Shadow

/-- The descriptor after `ipaugenblick_app_init`. -/
def LocalDescr.initial : LocalDescr where
  select := none
  anyEventReceived := false
  localAddr := (0, 0)
  remoteAddr := (0, 0)
  localCache := .empty
  shadow := .cleared

/-- The `struct socket` of the index. -/
structure IndexSock where
  type : SockType
  /-- `sk_state` is TCP_LISTEN. -/
  listening : Bool
  /-- `buffers_available_notification_queue_present`. -/
  notify : Bool
  deriving DecidableEq, Repr

/-- The index without the descriptors of the processes and without `local_ipaddr` and
`local_port`. -/
structure IndexCore where
  readReadyToApp : Bool
  writeReadyToApp : Bool
  writeDoneFromApp : Bool
  socket : Option IndexSock
  parentIdx : Option ℕ
  mem : MbufMem
  rxRing : Ring ℕ dataRingCapacity
  /-- How many ACCEPTED commands are in the `rx_ring` of a listening socket. -/
  backlog : ℕ
  /-- How many buffers are in `tx_ring`. -/
  txCount : ℕ
  /-- The entries of the index in the ready ring of each selector. -/
  ready : ℕ → List ReadyBit
  /-- The commands for the index in the command ring. -/
  commands : List IndexCommand
  /-- The index is in `free_connections_ring`. -/
  free : Bool
  /-- The process that opened the index and has not closed it. -/
  holder : Option ℕ
  log : List Observation

/-- An index, its `local_ipaddr` and `local_port`, and its descriptor in each process. -/
structure IndexState where
  core : IndexCore
  localAddr : ℕ × ℕ
  descr : ℕ → LocalDescr

structure StackAnswer where
  /-- `app_glue_create_socket` returns a socket. -/
  created : Bool := true
  /-- `app_glue_v4_connect` succeeds, and what `inet_getname` returns then. -/
  connected : Option (ℕ × ℕ) := none
  /-- `app_glue_v4_listen` succeeds. -/
  listening : Bool := true
  /-- The chains that `kernel_recvmsg` returns before it returns nothing: the first segment and
  the others. -/
  chains : List (List UInt8 × List (List UInt8)) := []
  /-- How many buffers the loop of `kernel_sendpage` takes. -/
  taken : ℕ := 0
  /-- A `udp_sendmsg` returns 0 or less. -/
  exhausted : Bool := false

inductive IndexCall
  | openSocket (type : SockType) (parent : Option ℕ) (sending : Sending)
  | /-- `ipaugenblick_accept` takes the index for a new connection; `listener` is the address of
    the listening socket. -/
    accept (remote listener : ℕ × ℕ) (queued : Bool)
  | bind (addr : ℕ × ℕ) (sending : Sending)
  | connect (addr : ℕ × ℕ) (sending : Sending)
  | listen (sending : Sending)
  | setSocketSelect (select : Option ℕ) (sending : Sending)
  | close (sending : Sending)
  | /-- `ipaugenblick_send` and its siblings, with `n` buffers. -/
    send (n : ℕ)
  | receive (totalLen : ℕ) (kick : Sending)
  | receivefrom (kick : Sending)
  | releaseRxBuffer (pdesc : ℕ)
  | /-- `ipaugenblick_accept` on the index as the listening socket. -/
    acceptFrom
  | socketKick (sending : Sending)
  | /-- `ipaugenblick_get_socket_tx_space` and its sibling; `low` when too little is left. -/
    getSocketTxSpace (low : Bool) (sending : Sending)
  | getsockname (isLocal : Bool)
  | isConnected
  | /-- An `ipaugenblick_select` that gets as far as the ready ring. -/
    select (selector : ℕ)

inductive IndexEvent
  | /-- `process_commands` takes a command of the index. -/
    processCommands (o : StackAnswer)
  | /-- The socket is in the read-ready list. -/
    dataAvailable (o : StackAnswer)
  | /-- The socket is in the write-ready list. -/
    transmissionOpportunity (o : StackAnswer)
  | /-- The socket is in the list of those that wait for buffers. -/
    buffersAvailable (removed : Bool)
  | /-- `user_on_accept` posts a new connection of a listening socket. -/
    postAccepted
  | /-- `user_on_socket_fatal`. -/
    socketFatal

/-- One step of a client process or of the service. -/
inductive IndexStep
  | call (a : ℕ) (c : IndexCall)
  | service (e : IndexEvent)

namespace IndexCore

variable (c : IndexCore)

/-- An index that no one has ever used, with the packet buffers `mem`. -/
def unused (mem : MbufMem) : IndexCore where
  readReadyToApp := false
  writeReadyToApp := false
  writeDoneFromApp := false
  socket := none
  parentIdx := none
  mem := mem
  rxRing := .empty
  backlog := 0
  txCount := 0
  ready _ := []
  commands := []
  free := true
  holder := none
  log := []

/-- `rte_ring_enqueue` on the ready ring of a selector. -/
def post (selector : ℕ) (bit : ReadyBit) : IndexCore :=
  { c with
    ready := Function.update c.ready selector (c.ready selector ++ [bit])
    log := c.log ++ [.posted selector bit] }

/-- `ipaugenblick_mark_readable`. -/
def markReadable : IndexCore :=
  match c.parentIdx with
  | none => c
  | some selector =>
      if c.readReadyToApp then c else { c with readReadyToApp := true }.post selector .readable

/-- `ipaugenblick_mark_writable`. -/
def markWritable : IndexCore :=
  match c.parentIdx with
  | none => c
  | some selector =>
      if c.writeReadyToApp then c else { c with writeReadyToApp := true }.post selector .writable

/-- `ipaugenblick_mark_closed`. -/
def markClosed : IndexCore :=
  match c.parentIdx with
  | none => c
  | some selector => c.post selector .closed

/-- `ipaugenblick_enqueue_command_buf`. -/
def sendCommand (sending : Sending) (cmd : IndexCommand) : IndexCore :=
  match sending with
  | .queued => { c with commands := c.commands ++ [cmd] }
  | _ => c

/-- The loop of `user_data_available_cbk` with `ring_free` free slots. -/
def deliver (c : IndexCore) : ℕ → List (List UInt8 × List (List UInt8)) → IndexCore
  | 0, _ => c.markReadable
  | _ + 1, [] => c
  | ringFree + 1, (seg, segs) :: chains =>
      let mem := allocChain c.mem (seg :: segs)
      match c.rxRing.enqueueBulk 1 [c.mem.size] with
      | (.success, rxRing) => deliver { c with mem, rxRing } ringFree chains
      | (.quota, rxRing) => deliver (markReadable { c with mem, rxRing }) ringFree chains
      | (.nobufs, _) => markReadable { c with mem := mem.rtePktmbufFree (some c.mem.size) }

def userDataAvailableCbk (o : StackAnswer) : IndexCore := c.deliver c.rxRing.freeCount o.chains

def userOnTransmissionOpportunity (type : SockType) (o : StackAnswer) : IndexCore :=
  let c := { c with writeDoneFromApp := false }
  if c.txCount = 0 then c.markWritable
  else if type = .stream then markWritable { c with txCount := c.txCount - o.taken }
  else if o.exhausted then { c with txCount := 0 }
  else markWritable { c with txCount := 0 }

def userFlushRxTx : IndexCore :=
  { c with
    mem := c.rxRing.items.foldl (fun M mbuf => M.rtePktmbufFree (some mbuf)) c.mem
    rxRing := .empty
    backlog := 0
    txCount := 0 }

/-- `process_commands` on a command of the index.  On a listening socket the callbacks end the
service, and without a socket SET_SOCKET_SELECT marks the index -1. -/
def processCommand (o : StackAnswer) : IndexCommand → Option IndexCore
  | .openSocket type parent =>
      if o.created then
        some { c with
          socket := some { type, listening := false, notify := false }, parentIdx := parent }
      else some c
  | .connect => some c
  | .bind => some c
  | .listen =>
      c.socket.map fun k =>
        { c with socket := some { k with listening := k.listening || o.listening } }
  | .close =>
      match c.socket with
      | none => some c
      | some _ => some { c.userFlushRxTx with socket := none, parentIdx := none, free := true }
  | .txKick =>
      match c.socket with
      | none => some c
      | some k => if k.listening then none else some (c.userOnTransmissionOpportunity k.type o)
  | .rxKick =>
      match c.socket with
      | none => some c
      | some k => if k.listening then none else some (c.userDataAvailableCbk o)
  | .setSocketRing =>
      -- an accept sends the parent -1, and the satellite data keeps its own
      let c := { c with socket := some { type := .stream, listening := false, notify := false } }
      some (c.userDataAvailableCbk o).markWritable.markReadable
  | .setSocketSelect select =>
      let c := { c with parentIdx := select }
      match c.socket with
      | none => if select = none then some c else none
      | some k =>
          if k.listening then none
          else some (c.userDataAvailableCbk o).markWritable.markReadable
  | .txPoolEmpty => some { c with socket := c.socket.map fun k => { k with notify := true } }

def event : IndexEvent → Option IndexCore
  | .processCommands o =>
      match c.commands with
      | [] => none
      | cmd :: commands => { c with commands }.processCommand o cmd
  | .dataAvailable o =>
      c.socket.bind fun k => if k.listening then none else some (c.userDataAvailableCbk o)
  | .transmissionOpportunity o =>
      c.socket.bind fun k =>
        if k.listening then none else some (c.userOnTransmissionOpportunity k.type o)
  | .buffersAvailable removed =>
      c.socket.bind fun k =>
        if k.notify then
          some (markWritable { c with socket := some { k with notify := !removed } })
        else none
  | .postAccepted =>
      c.socket.bind fun k =>
        if k.listening then
          if c.backlog < dataRingCapacity then
            some (markReadable { c with backlog := c.backlog + 1 })
          else some c
        else none
  | .socketFatal => c.socket.bind fun _ => some c.userFlushRxTx.markClosed

end IndexCore

/-- The receive side of the index in the hands of a client. -/
def IndexCore.rxClient (c : IndexCore) (d : LocalDescr) : RxClient where
  mem := c.mem
  ring := c.rxRing
  cache := d.localCache
  descr := d.shadow

/-- A call that worked on the receive side. -/
def IndexCore.putRxClient (c : IndexCore) (d : LocalDescr) (rx : RxClient) :
    IndexCore × LocalDescr :=
  ({ c with mem := rx.mem, rxRing := rx.ring },
    { d with localCache := rx.cache, shadow := rx.descr })

/-- `ipaugenblick_receive` gets as far as `ipaugenblick_dequeue_rx_buf`. -/
def RxClient.receiveDequeues (c : RxClient) (n : ℕ) : Bool :=
  match c.ipaugenblickGetFromShadow with
  | (none, _) => true
  | (some mbuf, c) =>
      if 0 < n then
        let first := ipaugenblickTryReadExactAmount c.mem c.descr mbuf n
        decide (0 < first.totalLen ∧ first.totalLen < n)
      else true

/-- The result of `ipaugenblick_getsockname`. -/
def getsockname (localAddr : ℕ × ℕ) (d : LocalDescr) (isLocal : Bool) : ℕ × ℕ :=
  if isLocal then if localAddr.1 ≠ 0 then localAddr else d.localAddr
  else d.remoteAddr

def IndexCore.ownerCall (c : IndexCore) (localAddr : ℕ × ℕ) (d : LocalDescr) :
    IndexCall → Option (IndexCore × LocalDescr)
  | .openSocket _ _ _ => none
  | .accept _ _ _ => none
  | .select _ => none
  | .bind addr sending =>
      some (c.sendCommand sending .bind,
        if sending = .queued then { d with localAddr := addr } else d)
  | .connect addr sending =>
      some (c.sendCommand sending .connect,
        if sending = .queued then { d with remoteAddr := addr } else d)
  | .listen sending => some (c.sendCommand sending .listen, d)
  | .setSocketSelect select sending =>
      some (c.sendCommand sending (.setSocketSelect select),
        if sending = .queued then { d with select } else d)
  | .close .noBuf => some (c, d)
  | .close sending =>
      -- the commands in the ring of a listening socket are dropped too
      let closed := c.putRxClient d (c.rxClient d).ipaugenblickFlushRx
      some ({ closed.1 with backlog := 0, holder := none }.sendCommand sending .close,
        { closed.2 with select := none })
  | .send n =>
      let c := { c with writeReadyToApp := false }
      some (if c.txCount + n ≤ dataRingCapacity then { c with txCount := c.txCount + n } else c, d)
  | .receive totalLen kick =>
      if c.backlog = 0 then
        let rx := c.rxClient d
        let received := rx.ipaugenblickReceive totalLen
        let done := c.putRxClient d received.2
        let c := if rx.receiveDequeues totalLen then
            { done.1 with readReadyToApp := false }.sendCommand kick .rxKick
          else done.1
        -- what is left in the shadow is announced by the client itself
        match received.1, done.2.shadow.shadow, d.select with
        | some _, some _, some selector =>
            some (if 0 < totalLen then c.post selector .readable else c, done.2)
        | _, _, _ => some (c, done.2)
      else none
  | .receivefrom kick =>
      if c.backlog = 0 then
        let done := c.putRxClient d (c.rxClient d).ipaugenblickDequeueRxBuf.2
        some ({ done.1 with readReadyToApp := false }.sendCommand kick .rxKick, done.2)
      else none
  | .releaseRxBuffer pdesc =>
      some (c.putRxClient d ((c.rxClient d).ipaugenblickReleaseRxBuffer pdesc))
  | .acceptFrom =>
      if c.rxRing.count = 0 then
        some ({ c with readReadyToApp := false, backlog := c.backlog - 1 }, d)
      else none
  | .socketKick sending =>
      if c.writeDoneFromApp then some (c, d)
      else
        let c := { c with writeDoneFromApp := true }
        match sending with
        | .queued =>
            some ({ c with log := c.log ++ [Observation.txKick] }.sendCommand .queued .txKick, d)
        | _ => some (c, d)
  | .getSocketTxSpace low sending =>
      if low then some ({ c with writeReadyToApp := false }.sendCommand sending .txPoolEmpty, d)
      else some (c, d)
  | .getsockname isLocal =>
      some ({ c with log := c.log ++ [.sockname (getsockname localAddr d isLocal)] }, d)
  | .isConnected => some ({ c with log := c.log ++ [.connected d.anyEventReceived] }, d)

/-- A call of the process `a`. -/
def IndexCore.call (c : IndexCore) (a : ℕ) (localAddr : ℕ × ℕ) (d : LocalDescr) :
    IndexCall → Option (IndexCore × LocalDescr)
  | .openSocket type parent sending =>
      if c.free then
        match sending with
        | .queued =>
            some ({ c with
              free := false, holder := some a
              commands := c.commands ++ [.openSocket type parent] },
              { d with select := parent, shadow := .cleared })
        -- the index is lost
        | _ => some ({ c with free := false }, d)
      else none
  | .accept remote listener queued =>
      if c.free then
        let d := { d with shadow := .cleared, remoteAddr := remote, localAddr := listener }
        if queued then
          some ({ c with
            free := false, holder := some a, commands := c.commands ++ [.setSocketRing] }, d)
        else some ({ c with free := false }, d)
      else none
  | .select selector =>
      some ({ c with ready := Function.update c.ready selector [] },
        if d.select ≠ none ∧ c.ready selector ≠ [] then { d with anyEventReceived := true }
        else d)
  | call => if c.holder = some a then c.ownerCall localAddr d call else none

/-- `local_ipaddr` and `local_port` after an event: CONNECT writes them. -/
def IndexState.nextLocalAddr (s : IndexState) : IndexEvent → ℕ × ℕ
  | .processCommands o =>
      if s.core.commands.head? = some .connect ∧ s.core.socket ≠ none then
        o.connected.getD s.localAddr
      else s.localAddr
  | _ => s.localAddr

/-- An index that no one has ever used. -/
def IndexState.unused (mem : MbufMem) : IndexState where
  core := .unused mem
  localAddr := (0, 0)
  descr _ := .initial

/-- One connection index.  The state has everything that a process or the service keeps under the
index, so that two owners can be compared in what they find. -/
def indexMachine : Machine IndexState IndexStep where
  init := .unused noMbufs
  step s
    | .call a call =>
        (s.core.call a s.localAddr (s.descr a) call).map fun done =>
          { s with core := done.1, descr := Function.update s.descr a done.2 }
    | .service e =>
        (s.core.event e).map fun core => { s with core, localAddr := s.nextLocalAddr e }

/-- What is observed from `s` on. -/
def IndexState.observe (s : IndexState) (steps : List IndexStep) : Option (List Observation) :=
  (indexMachine.runFrom { s with core := { s.core with log := [] } } steps).map
    fun t => t.core.log

end IpAugenblick
