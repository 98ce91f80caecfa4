/-
# What the service and its clients work on

The kernel sockets with the five lists they can be in, the satellite data of the
connection slots, the receive rings of the connections, the command buffers and the
clients.  Sockets and command buffers are numbered; a number stands for the pointer.

`calls` records, latest first, the calls into the stack that are made on behalf of a
socket, so that what happens to a socket over a whole run can be stated.
-/

import IpAugenblick.Service.Slots
import IpAugenblick.Stack.Sock

namespace IpAugenblick

open Lib

def commandPoolSize : ℕ := 32768

/-- The lists a `struct socket` can be in, each with a presence flag of its own:
those of `app_glue.c` and the buffers-available list of the main loop. -/
inductive SocketQueue
  | read
  | write
  | accept
  | closed
  | buffersAvailable
  deriving DecidableEq, Repr

/-- A `struct socket` with the part of its `sk` that the service looks at. -/
structure Socket where
  type : SockType
  skState : TcpState
  /-- `sk_user_data`: the slot whose satellite data it points to. -/
  userData : Option ℕ
  /-- The `..._queue_present` flags. -/
  present : SocketQueue → Bool
  /-- References that `app_glue.c` took with `sock_hold` and has not put. -/
  holds : ℤ
  /-- `sk_prot->close` ran: `sk->sk_socket` is NULL and the structure is freed. -/
  released : Bool

/-- What a number that was not handed out yet stands for. -/
def Socket.unborn : Socket where
  type := .stream
  skState := .close
  userData := none
  present := fun _ => false
  holds := 0
  released := false

inductive KernelCall
  | getUserData
  | recvmsg
  | sendpage
  | sendmsg
  | streamWspace
  | flushRxTx
  | close
  deriving DecidableEq, Repr

/-- How the service can come down. -/
inductive Crash
  | /-- A NULL `struct socket` is dereferenced. -/
    nullSocket
  | /-- `get_user_data` or `app_glue_set_user_data` is given NULL. -/
    panicUserData
  | /-- NULL satellite data is dereferenced. -/
    nullUserData
  | /-- `exit(0)` in `user_on_transmission_opportunity` on a listening socket. -/
    transmissionOnListener
  | /-- `exit(0)` in `user_data_available_cbk` on a listening socket. -/
    dataOnListener
  | /-- `exit(0)` in `app_glue_sock_readable` when the queue length is zero. -/
    readableUncounted
  | /-- `ipaugenblick_accept` takes an mbuf for a command, which goes to the service. -/
    mbufAsCommand
  deriving DecidableEq, Repr

/-- The commands of `process_commands`. -/
inductive Command
  | openSocket (idx : ℕ) (type : SockType) (parent : Option ℕ)
  | connect (idx : ℕ)
  | bind (idx : ℕ)
  | listen (idx : ℕ)
  | close (idx : ℕ)
  | txKick (idx : ℕ)
  | rxKick (idx : ℕ)
  | setSocketRing (idx : ℕ) (descr : ℕ)
  | setSocketSelect (idx : ℕ) (select : Option ℕ)
  | txPoolEmpty (idx : ℕ)
  | setsockopt (idx : ℕ)
  | shutdown (idx : ℕ)
  | decline (descr : ℕ)
  | /-- Routes and client registration, which touch no socket. -/
    other
  deriving DecidableEq, Repr

structure CmdBuf where
  buf : ℕ
  cmd : Command
  deriving DecidableEq, Repr

/-- An element of an `rx_ring`. -/
inductive RxEntry
  | /-- A received chain. -/
    mbuf
  | /-- An ACCEPTED command, in buffer `buf`, with the new socket. -/
    accepted (buf sock : ℕ)
  deriving DecidableEq, Repr

/-- The fields of `socket_satelite_data_t` that the service changes. -/
structure Satelite where
  socket : Option ℕ
  ringsetIdx : Option ℕ
  parentIdx : Option ℕ
  deriving DecidableEq, Repr

def Satelite.empty : Satelite := ⟨none, none, none⟩

inductive ClientPc
  | /-- Between two calls. -/
    idle
  | /-- `ipaugenblick_open_socket` has taken a slot. -/
    opening (idx : ℕ) (type : SockType) (parent : Option ℕ)
  | /-- `ipaugenblick_accept` has taken an ACCEPTED command from the ring. -/
    accepting (buf sock : ℕ)
  | /-- A command is filled in and about to be queued. -/
    issuing (c : CmdBuf)
  deriving DecidableEq, Repr

structure Client where
  pc : ClientPc
  /-- The slot was returned by an open or accept, and not closed since. -/
  handle : ℕ → Bool

/-- Where the service is in `ipaugenblick_main_loop`. -/
inductive ServicePc
  | /-- Before `process_commands`. -/
    commands
  | /-- In the loop of `process_tx_ready_sockets`. -/
    tx (idx limit : ℕ)
  | /-- In a round of it, after the call for socket `k`. -/
    txDone (k idx limit : ℕ)
  | /-- In the first loop of `process_rx_ready_sockets`. -/
    closing
  | /-- In the second one. -/
    accepting
  | /-- In the third one. -/
    rx (idx limit : ℕ)
  | /-- In a round of it, after the call for socket `k`. -/
    rxDone (k idx limit : ℕ)
  | /-- In the loop over the buffers-available list. -/
    buffers
  deriving DecidableEq, Repr

/-- The service, its clients and what they share.  What an unchecked pointer would do is in
`crash`, and the record of calls into the stack tells what was done to a socket. -/
structure ServiceState where
  sockets : ℕ → Socket
  /-- Number of sockets created so far. -/
  next : ℕ
  queue : SocketQueue → List ℕ
  readSocketsQueueLen : ℕ
  writeSocketsQueueLen : ℕ
  satelite : ℕ → Satelite
  rxRing : ℕ → Ring RxEntry dataRingCapacity
  freeConnectionsRing : Ring ℕ (connectionPoolSize - 1)
  freeCommandPool : List ℕ
  commandRing : Ring CmdBuf commandRingCapacity
  clients : ℕ → Client
  pc : ServicePc
  calls : List (KernelCall × ℕ)
  crash : Option Crash
  /-- Sockets that `kernel_accept` returned. -/
  accepted : List ℕ
  /-- Slots held by a call when it returned a negative value. -/
  lostSlots : List ℕ

namespace ServiceState

/-- Record a call on behalf of socket `k`. -/
def call (s : ServiceState) (c : KernelCall) (k : ℕ) : ServiceState :=
  { s with calls := (c, k) :: s.calls }

def setSocket (s : ServiceState) (k : ℕ) (f : Socket → Socket) : ServiceState :=
  { s with sockets := Function.update s.sockets k (f (s.sockets k)) }

@[simp]
theorem setSocket_self (s : ServiceState) (k : ℕ) (f : Socket → Socket) :
    (s.setSocket k f).sockets k = f (s.sockets k) := Function.update_self _ _ _

@[simp]
theorem setSocket_of_ne (s : ServiceState) {j k : ℕ} (hjk : j ≠ k) (f : Socket → Socket) :
    (s.setSocket k f).sockets j = s.sockets j := Function.update_of_ne hjk _ _

def setSatelite (s : ServiceState) (i : ℕ) (d : Satelite) : ServiceState :=
  { s with satelite := Function.update s.satelite i d }

def setClient (s : ServiceState) (a : ℕ) (c : Client) : ServiceState :=
  { s with clients := Function.update s.clients a c }

def setClientPc (s : ServiceState) (a : ℕ) (pc : ClientPc) : ServiceState :=
  s.setClient a { s.clients a with pc }

def setRxRing (s : ServiceState) (i : ℕ) (r : Ring RxEntry dataRingCapacity) : ServiceState :=
  { s with rxRing := Function.update s.rxRing i r }

/-- `ipaugenblick_free_command_buf`. -/
def freeCommandBuf (s : ServiceState) (buf : ℕ) : ServiceState :=
  { s with freeCommandPool := buf :: s.freeCommandPool }

/-- Count a socket in or out of the read or write list. -/
def count (s : ServiceState) (q : SocketQueue) (f : ℕ → ℕ) : ServiceState :=
  match q with
  | .read => { s with readSocketsQueueLen := f s.readSocketsQueueLen }
  | .write => { s with writeSocketsQueueLen := f s.writeSocketsQueueLen }
  | _ => s

def setPresent (s : ServiceState) (q : SocketQueue) (k : ℕ) (b : Bool) : ServiceState :=
  s.setSocket k fun sock => { sock with present := Function.update sock.present q b }

/-- Set a presence flag and insert the socket at the tail of the list. -/
def insertTail (s : ServiceState) (q : SocketQueue) (k : ℕ) : ServiceState :=
  { s.setPresent q k true with queue := Function.update s.queue q (s.queue q ++ [k]) }

/-- Clear a presence flag and remove the socket from the list. -/
def remove (s : ServiceState) (q : SocketQueue) (k : ℕ) : ServiceState :=
  { s.setPresent q k false with queue := Function.update s.queue q ((s.queue q).erase k) }

/-- `sock_hold` and `sock_put`. -/
def hold (s : ServiceState) (k : ℕ) (d : ℤ) : ServiceState :=
  s.setSocket k fun sock => { sock with holds := sock.holds + d }

def newSocket (s : ServiceState) (sock : Socket) : ServiceState :=
  { s with sockets := Function.update s.sockets s.next sock, next := s.next + 1 }

/-- `kernel_close`: `sk_prot->close` orphans the `sk`, which frees the socket. -/
def kernelClose (s : ServiceState) (k : ℕ) : ServiceState :=
  (s.call .close k).setSocket k fun sock =>
    { sock with
      released := true
      skState := if sock.skState = .listen then .close else sock.skState }

end ServiceState

/-- A step of the service that may bring it down; the state then is the last one. -/
abbrev Outcome := Except (Crash × ServiceState) ServiceState

end IpAugenblick
