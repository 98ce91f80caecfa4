/-
# The service loop and its clients

`process_commands`, the loops of `app_glue_periodic`, the buffers-available loop and
the calls of the client library that queue commands.  A client's call is cut where
other parties can come in between: after it has taken a slot, a command buffer or an
accepted connection.

The service handles one command or one list element in a step.  Polling the driver and
the timers are the events of the stack, which may come between any two steps.
-/

import IpAugenblick.Lib.Machine
import IpAugenblick.Service.AppGlue

namespace IpAugenblick

open Lib

/-- What the stack, the clock and the buffer pool answer during a step. -/
structure Answers where
  /-- `sock_create_kern` succeeds. -/
  created : Bool := true
  /-- `inet_listen` finds an unconnected socket and gets the port. -/
  listens : Bool := true
  /-- `sk_state` after `kernel_connect` or `inet_shutdown`. -/
  skState : TcpState := .close
  /-- Chains that `kernel_recvmsg` has. -/
  available : ℕ := 0
  /-- Sends of a transmission opportunity. -/
  sent : ℕ := 0
  /-- Connections that `kernel_accept` has. -/
  waiting : ℕ := 0
  /-- `sk_stream_is_writeable`. -/
  writeable : Bool := true
  /-- The poll interval of the write list is over. -/
  elapsedTx : Bool := true
  /-- The poll interval of the other lists is over. -/
  elapsedRx : Bool := true
  /-- `get_buffer_count` is positive. -/
  buffersLeft : Bool := true
  /-- `ipaugenblick_mark_writable` on a slot with a selector leaves 0. -/
  marked : Bool := true

/-- What the stack raises by itself. -/
inductive StackEvent
  | readable (k : ℕ)
  | writeSpace (k : ℕ) (writeable : Bool)
  | errorReport (k : ℕ)
  | /-- A connection on listener `k` is established. -/
    newConnection (k : ℕ)
  | stateChange (k : ℕ) (st : TcpState)

namespace ServiceState

/-- A socket that is not listening moves to another state, other than listening. -/
def stateChange (s : ServiceState) (k : ℕ) (st : TcpState) : ServiceState :=
  if (s.sockets k).skState = .listen ∨ st = .listen then s
  else s.setSocket k fun sock => { sock with skState := st }

/-- `inet_shutdown`: a listening socket is closed or stays as it is. -/
def inetShutdown (s : ServiceState) (k : ℕ) (st : TcpState) : ServiceState :=
  if (s.sockets k).skState = .listen ∧ st = .close then
    s.setSocket k fun sock => { sock with skState := .close }
  else s.stateChange k st

def appGlueV4Listen (s : ServiceState) (sock : Option ℕ) (listens : Bool) : Outcome :=
  match sock with
  | none => .error (.nullSocket, s)
  | some k =>
      if listens ∧ (s.sockets k).type = .stream ∧ (s.sockets k).skState = .close then
        .ok (s.setSocket k fun sock => { sock with skState := .listen })
      else .ok s

/-- `process_commands` on one command. -/
def processCommand (s : ServiceState) (o : Answers) : Command → Outcome
  | .openSocket i type parent =>
      if o.created then
        let (k, s) := s.appGlueCreateSocket type o.writeable
        let s := (s.appGlueSetUserData k (some i)).setSatelite i ⟨some k, some i, parent⟩
        .ok (s.call .streamWspace k)
      else .ok s
  | .connect i =>
      match (s.satelite i).socket with
      | none => .ok s
      | some k => .ok (s.stateChange k o.skState)
  | .bind _ => .ok s
  | .listen i => s.appGlueV4Listen (s.satelite i).socket o.listens
  | .close i =>
      match (s.satelite i).socket with
      | none => .ok s
      | some k => do
          let s ← s.userFlushRxTx k
          let s := (s.appGlueCloseSocket k o.waiting).setSatelite i .empty
          return { s with
            freeConnectionsRing := (s.freeConnectionsRing.enqueueBulk connectionPoolSize [i]).2 }
  | .txKick i => s.userOnTransmissionOpportunity (s.satelite i).socket o.sent
  | .rxKick i => s.userDataAvailableCbk (s.satelite i).socket o.available
  | .setSocketRing i k =>
      let s := (s.appGlueSetUserData k (some i)).setSatelite i
        { s.satelite i with socket := some k, ringsetIdx := some i }
      (s.call .streamWspace k).userDataAvailableCbk (some k) o.available
  | .setSocketSelect i select =>
      let s := s.setSatelite i { s.satelite i with parentIdx := select }
      s.userDataAvailableCbk (s.satelite i).socket o.available
  | .txPoolEmpty i =>
      match (s.satelite i).socket with
      | none => .ok s
      | some k =>
          if (s.sockets k).present .buffersAvailable then .ok s
          else
            let s := s.insertTail .buffersAvailable k
            .ok (if (s.sockets k).type = .dgram then s.call .streamWspace k else s)
  | .setsockopt _ => .ok s
  | .shutdown i =>
      match (s.satelite i).socket with
      | none => .ok s
      | some k => .ok (s.inetShutdown k o.skState)
  | .decline k => do
      let s ← s.userFlushRxTx k
      return s.appGlueCloseSocket k o.waiting
  | .other => .ok s

def processCommands (s : ServiceState) (o : Answers) : Outcome :=
  match s.commandRing.dequeue with
  | none => .ok s
  | some (c, ring) => do
      let s ← processCommand { s with commandRing := ring } o c.cmd
      return s.freeCommandBuf c.buf

/-- Go on to the lists of `process_rx_ready_sockets`, or past them. -/
def afterTx (s : ServiceState) (o : Answers) : ServiceState :=
  { s with pc := if o.elapsedRx then .closing else .buffers }

/-- One round of the buffers-available loop on its first socket `k`. -/
def buffersRound (s : ServiceState) (o : Answers) (k : ℕ) : Outcome := do
  let (data, s) ← s.getUserData (some k)
  match data with
  | none => throw (.nullUserData, s)
  | some i =>
      match (s.satelite i).socket with
      | none => throw (.nullSocket, s)
      | some k' =>
          let s := if (s.sockets k').type = .dgram then s.call .streamWspace k' else s
          if o.marked ∧ (s.satelite i).parentIdx ≠ none then return s.remove .buffersAvailable k
          else return { s with pc := .commands }

/-- One step of `ipaugenblick_main_loop`. -/
def serviceStep (s : ServiceState) (o : Answers) : Outcome :=
  match s.pc with
  | .commands => do
      let s ← s.processCommands o
      return if o.elapsedTx then { s with pc := .tx 0 s.writeSocketsQueueLen } else s.afterTx o
  | .tx idx limit =>
      match s.queue .write with
      | [] => .ok (s.afterTx o)
      | k :: _ =>
          if idx < limit then do
            let s ← (s.remove .write k).userOnTransmissionOpportunity (some k) o.sent
            return { s with pc := .txDone k idx limit }
          else .ok (s.afterTx o)
  | .txDone k idx limit =>
      .ok { (s.hold k (-1)).count .write (· - 1) with pc := .tx (idx + 1) limit }
  | .closing =>
      match s.queue .closed with
      | [] => .ok { s with pc := .accepting }
      | k :: _ => do
          let s ← s.userOnSocketFatal k
          return ((s.remove .closed k).hold k (-1)).kernelClose k
  | .accepting =>
      match s.queue .accept with
      | [] => .ok { s with pc := .rx 0 s.readSocketsQueueLen }
      | k :: _ => do
          let s ← userOnAccept k o.waiting s
          return (s.remove .accept k).hold k (-1)
  | .rx idx limit =>
      match s.queue .read with
      | [] => .ok { s with pc := .buffers }
      | k :: _ =>
          if idx < limit then do
            let s ← (s.remove .read k).userDataAvailableCbk (some k) o.available
            return { s with pc := .rxDone k idx limit }
          else .ok { s with pc := .buffers }
  | .rxDone k idx limit =>
      .ok { (s.hold k (-1)).count .read (· - 1) with pc := .rx (idx + 1) limit }
  | .buffers =>
      match s.queue .buffersAvailable with
      | [] => .ok { s with pc := .commands }
      | k :: _ => if o.buffersLeft then s.buffersRound o k else .ok { s with pc := .commands }

/-- An event of the stack; a callback on a freed socket finds `sk_socket` NULL. -/
def stackEvent (s : ServiceState) : StackEvent → Option Outcome
  | .readable k => if k < s.next then some (s.appGlueSockReadable k) else none
  | .writeSpace k writeable =>
      if k < s.next then some (.ok (s.appGlueSockWriteSpace k writeable)) else none
  | .errorReport k => if k < s.next then some (.ok (s.appGlueSockErrorReport k)) else none
  | .newConnection k =>
      -- only listening sockets are in the hash that the listener is looked up in
      if k < s.next ∧ (s.sockets k).skState = .listen ∧ (s.sockets k).released = false then
        some (.ok (s.appGlueSockWakeup k))
      else none
  | .stateChange k st => if k < s.next then some (.ok (s.stateChange k st)) else none

end ServiceState

/-- The commands that a client's call fills in without taking anything else first. -/
def Command.plain : Command → Bool
  | .openSocket .. => false
  | .setSocketRing .. => false
  | .decline _ => false
  | _ => true

def Command.idx : Command → Option ℕ
  | .openSocket i _ _ => some i
  | .connect i => some i
  | .bind i => some i
  | .listen i => some i
  | .close i => some i
  | .txKick i => some i
  | .rxKick i => some i
  | .setSocketRing i _ => some i
  | .setSocketSelect i _ => some i
  | .txPoolEmpty i => some i
  | .setsockopt i => some i
  | .shutdown i => some i
  | .decline _ => none
  | .other => none

/-- The slot that a command will bind a socket to. -/
def Command.opens : Command → Option ℕ
  | .openSocket i _ _ => some i
  | .setSocketRing i _ => some i
  | _ => none

inductive ServiceStep
  | stack (e : StackEvent)
  | service (o : Answers)
  | /-- `ipaugenblick_open_socket` takes a slot. -/
    takeSlot (a : ℕ) (type : SockType) (parent : Option ℕ)
  | /-- `ipaugenblick_open_socket` goes on to get a command buffer. -/
    openCommand (a : ℕ)
  | /-- Any other call that queues a command gets a command buffer for it. -/
    getCommand (a : ℕ) (cmd : Command)
  | /-- `ipaugenblick_accept` on slot `i` takes what is in the ring. -/
    acceptTake (a i : ℕ)
  | /-- `ipaugenblick_accept` takes a slot for the new connection. -/
    acceptSlot (a : ℕ)
  | /-- The command that a client has filled in is queued. -/
    post (a : ℕ)
  | /-- A receive or flush takes the next element of the ring of slot `i` as an mbuf. -/
    dequeueRx (i : ℕ)

namespace ServiceState

/-- The application gives up slot `i` when it calls `ipaugenblick_close`. -/
def calledWith (s : ServiceState) (a : ℕ) : Command → ServiceState
  | .close i =>
      s.setClient a { s.clients a with handle := Function.update (s.clients a).handle i false }
  | _ => s

/-- The end of a call that queued its command: an open or accept returns its slot. -/
def posted (s : ServiceState) (a : ℕ) (c : CmdBuf) (ring : Ring CmdBuf commandRingCapacity) :
    ServiceState :=
  let s := { s with commandRing := ring }
  match c.cmd.opens with
  | none => s
  | some i =>
      s.setClient a { s.clients a with handle := Function.update (s.clients a).handle i true }

/-- The end of a call that found the command ring full.  `ipaugenblick_dequeue_rx_buf`
ignores it; the other calls free the buffer, and nothing else. -/
def notPosted (s : ServiceState) (c : CmdBuf) : ServiceState :=
  match c.cmd with
  | .rxKick _ => s
  | cmd => { s.freeCommandBuf c.buf with lostSlots := cmd.opens.toList ++ s.lostSlots }

/-- `ipaugenblick_enqueue_command_buf` and the end of the call. -/
def post (s : ServiceState) (a : ℕ) (c : CmdBuf) : ServiceState :=
  let s := s.setClientPc a .idle
  match s.commandRing.enqueueBulk (commandRingCapacity + 1) [c] with
  | (.nobufs, _) => s.notPosted c
  | (_, ring) => s.posted a c ring

/-- The state that an outcome leaves. -/
def settle : Outcome → ServiceState
  | .ok s => s
  | .error (c, s) => { s with crash := some c }

end ServiceState

/-- The initial state of `ipaugenblick_service_api_init`. -/
def initialService : ServiceState where
  sockets := fun _ => .unborn
  next := 0
  queue := fun _ => []
  readSocketsQueueLen := 0
  writeSocketsQueueLen := 0
  satelite := fun _ => .empty
  rxRing := fun _ => .empty
  freeConnectionsRing := initialConnections
  freeCommandPool := List.range commandPoolSize
  commandRing := .empty
  clients := fun _ => ⟨.idle, fun _ => false⟩
  pc := .commands
  calls := []
  crash := none
  accepted := []
  lostSlots := []

def ServiceState.clientStep (s : ServiceState) : ServiceStep → Option ServiceState
  | .takeSlot a type parent =>
      match (s.clients a).pc, s.freeConnectionsRing.dequeue with
      | .idle, some (i, ring) =>
          some (ServiceState.setClientPc { s with freeConnectionsRing := ring } a
            (.opening i type parent))
      | _, _ => none
  | .openCommand a =>
      match (s.clients a).pc, s.freeCommandPool with
      | .opening i _ _, [] =>
          some { s.setClientPc a .idle with lostSlots := i :: s.lostSlots }
      | .opening i type parent, buf :: pool =>
          some (ServiceState.setClientPc { s with freeCommandPool := pool } a
            (.issuing ⟨buf, .openSocket i type parent⟩))
      | _, _ => none
  | .getCommand a cmd =>
      if cmd.plain ∧ ∀ i ∈ cmd.idx, i < connectionPoolSize then
        match (s.clients a).pc, s.freeCommandPool with
        | .idle, [] => some (s.calledWith a cmd)
        | .idle, buf :: pool =>
            some ((ServiceState.calledWith { s with freeCommandPool := pool } a cmd).setClientPc a
              (.issuing ⟨buf, cmd⟩))
        | _, _ => none
      else none
  | .acceptTake a i =>
      match (s.clients a).pc, (s.rxRing i).dequeue with
      | .idle, some (.accepted buf sock, ring) =>
          some ((s.setRxRing i ring).setClientPc a (.accepting buf sock))
      | .idle, some (.mbuf, _) => some { s with crash := some .mbufAsCommand }
      | _, _ => none
  | .acceptSlot a =>
      match (s.clients a).pc, s.freeConnectionsRing.dequeue with
      | .accepting buf sock, none => some (s.setClientPc a (.issuing ⟨buf, .decline sock⟩))
      | .accepting buf sock, some (i, ring) =>
          some (ServiceState.setClientPc { s with freeConnectionsRing := ring } a
            (.issuing ⟨buf, .setSocketRing i sock⟩))
      | _, _ => none
  | .post a =>
      match (s.clients a).pc with
      | .issuing c => some (s.post a c)
      | _ => none
  | .dequeueRx i =>
      match (s.rxRing i).dequeue with
      | some (_, ring) => some (s.setRxRing i ring)
      | none => none
  | _ => none

/-- What a step of a client can do. -/
inductive ClientMove (s : ServiceState) : ServiceStep → ServiceState → Prop
  | takeSlot {a i : ℕ} {type : SockType} {parent : Option ℕ}
      {ring : Ring ℕ (connectionPoolSize - 1)} (idle : (s.clients a).pc = .idle)
      (taken : s.freeConnectionsRing.items = i :: ring.items) :
      ClientMove s (.takeSlot a type parent)
        (ServiceState.setClientPc { s with freeConnectionsRing := ring } a
          (.opening i type parent))
  | lostSlot {a i : ℕ} {type : SockType} {parent : Option ℕ}
      (pc : (s.clients a).pc = .opening i type parent) (empty : s.freeCommandPool = []) :
      ClientMove s (.openCommand a) { s.setClientPc a .idle with lostSlots := i :: s.lostSlots }
  | openCommand {a i buf : ℕ} {type : SockType} {parent : Option ℕ} {pool : List ℕ}
      (pc : (s.clients a).pc = .opening i type parent) (taken : s.freeCommandPool = buf :: pool) :
      ClientMove s (.openCommand a) (ServiceState.setClientPc { s with freeCommandPool := pool } a
        (.issuing ⟨buf, .openSocket i type parent⟩))
  | calledOnly {a : ℕ} {cmd : Command} (plain : cmd.plain = true)
      (idle : (s.clients a).pc = .idle) (empty : s.freeCommandPool = []) :
      ClientMove s (.getCommand a cmd) (s.calledWith a cmd)
  | getCommand {a buf : ℕ} {cmd : Command} {pool : List ℕ} (plain : cmd.plain = true)
      (idle : (s.clients a).pc = .idle) (taken : s.freeCommandPool = buf :: pool) :
      ClientMove s (.getCommand a cmd)
        ((ServiceState.calledWith { s with freeCommandPool := pool } a cmd).setClientPc a
          (.issuing ⟨buf, cmd⟩))
  | acceptTake {a i buf sock : ℕ} {ring : Ring RxEntry dataRingCapacity}
      (idle : (s.clients a).pc = .idle)
      (taken : (s.rxRing i).items = .accepted buf sock :: ring.items) :
      ClientMove s (.acceptTake a i) ((s.setRxRing i ring).setClientPc a (.accepting buf sock))
  | mbufTaken {a i : ℕ} {ring : Ring RxEntry dataRingCapacity}
      (taken : (s.rxRing i).items = .mbuf :: ring.items) :
      ClientMove s (.acceptTake a i) { s with crash := some .mbufAsCommand }
  | decline {a buf sock : ℕ} (pc : (s.clients a).pc = .accepting buf sock) :
      ClientMove s (.acceptSlot a) (s.setClientPc a (.issuing ⟨buf, .decline sock⟩))
  | acceptSlot {a i buf sock : ℕ} {ring : Ring ℕ (connectionPoolSize - 1)}
      (pc : (s.clients a).pc = .accepting buf sock)
      (taken : s.freeConnectionsRing.items = i :: ring.items) :
      ClientMove s (.acceptSlot a)
        (ServiceState.setClientPc { s with freeConnectionsRing := ring } a
          (.issuing ⟨buf, .setSocketRing i sock⟩))
  | post {a : ℕ} {c : CmdBuf} (pc : (s.clients a).pc = .issuing c) :
      ClientMove s (.post a) (s.post a c)
  | dequeueRx {i : ℕ} {entry : RxEntry} {ring : Ring RxEntry dataRingCapacity}
      (taken : (s.rxRing i).items = entry :: ring.items) :
      ClientMove s (.dequeueRx i) (s.setRxRing i ring)

theorem ServiceState.clientStep_move {s t : ServiceState} {step : ServiceStep}
    (ht : s.clientStep step = some t) : ClientMove s step t := by
  cases step with
  | stack e => cases ht
  | service o => cases ht
  | takeSlot a type parent =>
      simp only [ServiceState.clientStep] at ht
      split at ht
      next i ring hidle hring =>
          obtain rfl := Option.some.inj ht
          exact .takeSlot hidle ((Ring.dequeue_eq_some_iff _ _ _).mp hring)
      next => cases ht
  | openCommand a =>
      simp only [ServiceState.clientStep] at ht
      split at ht
      next hpc hpool =>
          obtain rfl := Option.some.inj ht
          exact .lostSlot hpc hpool
      next hpc hpool =>
          obtain rfl := Option.some.inj ht
          exact .openCommand hpc hpool
      next => cases ht
  | getCommand a cmd =>
      simp only [ServiceState.clientStep] at ht
      split at ht
      next hguard =>
          split at ht
          next hidle hpool =>
              obtain rfl := Option.some.inj ht
              exact .calledOnly hguard.1 hidle hpool
          next hidle hpool =>
              obtain rfl := Option.some.inj ht
              exact .getCommand hguard.1 hidle hpool
          next => cases ht
      next => cases ht
  | acceptTake a i =>
      simp only [ServiceState.clientStep] at ht
      split at ht
      next hidle hring =>
          obtain rfl := Option.some.inj ht
          exact .acceptTake hidle ((Ring.dequeue_eq_some_iff _ _ _).mp hring)
      next hring =>
          obtain rfl := Option.some.inj ht
          exact .mbufTaken ((Ring.dequeue_eq_some_iff _ _ _).mp hring)
      next => cases ht
  | acceptSlot a =>
      simp only [ServiceState.clientStep] at ht
      split at ht
      next hpc hring =>
          obtain rfl := Option.some.inj ht
          exact .decline hpc
      next hpc hring =>
          obtain rfl := Option.some.inj ht
          exact .acceptSlot hpc ((Ring.dequeue_eq_some_iff _ _ _).mp hring)
      next => cases ht
  | post a =>
      simp only [ServiceState.clientStep] at ht
      split at ht
      next hpc =>
          obtain rfl := Option.some.inj ht
          exact .post hpc
      next => cases ht
  | dequeueRx i =>
      simp only [ServiceState.clientStep] at ht
      split at ht
      next hring =>
          obtain rfl := Option.some.inj ht
          exact .dequeueRx ((Ring.dequeue_eq_some_iff _ _ _).mp hring)
      next => cases ht

/-- The service with any number of clients on the stack.  Clients, stack and service take turns in
any order; the loops of the service are cut into their rounds, so that the others may come in
between. -/
def serviceMachine : Machine ServiceState ServiceStep where
  init := initialService
  step s a :=
    match s.crash with
    | some _ => none
    | none =>
        match a with
        | .stack e => (s.stackEvent e).map ServiceState.settle
        | .service o => some (ServiceState.settle (s.serviceStep o))
        | a => s.clientStep a

end IpAugenblick
