/-
# The glue between the stack and the service

The callbacks that the stack raises on a socket (`app_glue.c`) and those that the
service runs on it (`user_callbacks.h`).  What the stack answers is a parameter:
whether a socket has room, how many chains can be received, how many pages sent,
which connections are waiting to be accepted.

A callback may be raised again from inside a call into the stack.  Such a call does
not look at what the callback changes, so the callback is a step of its own before or
after it; where the order matters the loops of the service have a point of their own
after the call.
-/

import IpAugenblick.Service.State

namespace IpAugenblick

open Lib

namespace ServiceState

def appGlueSockReadable (s : ServiceState) (k : ℕ) : Outcome :=
  if (s.sockets k).released then .ok s
  else if (s.sockets k).skState ≠ .established ∧ (s.sockets k).type = .stream then .ok s
  else if (s.sockets k).present .read then
    if s.readSocketsQueueLen = 0 then .error (.readableUncounted, s) else .ok s
  else .ok (((s.hold k 1).insertTail .read k).count .read (· + 1))

def appGlueSockWriteSpace (s : ServiceState) (k : ℕ) (writeable : Bool) : ServiceState :=
  if (s.sockets k).released then s
  else if (s.sockets k).skState ≠ .established ∧ (s.sockets k).type = .stream then s
  else if !writeable || (s.sockets k).present .write then s
  else ((s.hold k 1).insertTail .write k).count .write (· + 1)

def appGlueSockErrorReport (s : ServiceState) (k : ℕ) : ServiceState :=
  if (s.sockets k).released || (s.sockets k).present .closed then s
  else (s.hold k 1).insertTail .closed k

/-- `app_glue_sock_wakeup` when the listener `k` of the connection is found.  Without
one it is `app_glue_sock_write_space`. -/
def appGlueSockWakeup (s : ServiceState) (k : ℕ) : ServiceState :=
  if (s.sockets k).present .accept then s else (s.hold k 1).insertTail .accept k

def getUserData (s : ServiceState) (sock : Option ℕ) :
    Except (Crash × ServiceState) (Option ℕ × ServiceState) :=
  match sock with
  | none => .error (.panicUserData, s)
  | some k => .ok ((s.sockets k).userData, s.call .getUserData k)

/-- What comes after `get_user_data` on a socket. -/
theorem getUserData_bind {α : Type} (s : ServiceState) (k : ℕ)
    (f : Option ℕ × ServiceState → Except (Crash × ServiceState) α) :
    (s.getUserData (some k) >>= f) = f ((s.sockets k).userData, s.call .getUserData k) := rfl

/-- The receive loop of `user_data_available_cbk`: `ringFree` rounds at most, ended by
a `kernel_recvmsg` that has nothing more. -/
def receiveLoop (k i : ℕ) : ℕ → ℕ → ServiceState → ServiceState
  | 0, _, s => s
  | _ + 1, 0, s => s.call .recvmsg k
  | ringFree + 1, available + 1, s =>
      let s := s.call .recvmsg k
      receiveLoop k i ringFree available
        (s.setRxRing i ((s.rxRing i).enqueueBulk 1 [.mbuf]).2)

def userDataAvailableCbk (s : ServiceState) (sock : Option ℕ) (available : ℕ) : Outcome :=
  match sock with
  | none => .ok s
  | some k => do
      let (data, s) ← s.getUserData (some k)
      match data with
      | none => return s
      | some i =>
          if (s.sockets k).skState = .listen then throw (.dataOnListener, s)
          else return receiveLoop k i (s.rxRing i).freeCount available s

/-- The sending loop of a stream socket: `pages` calls of `kernel_sendpage`. -/
def sendLoop (k : ℕ) : ℕ → ServiceState → ServiceState
  | 0, s => s.call .streamWspace k
  | pages + 1, s => sendLoop k pages ((s.call .streamWspace k).call .sendpage k)

/-- The sending loop of a datagram socket: `datagrams` calls of `udp_sendmsg`. -/
def sendmsgLoop (k : ℕ) : ℕ → ServiceState → ServiceState
  | 0, s => s
  | datagrams + 1, s => sendmsgLoop k datagrams (s.call .sendmsg k)

/-- `user_on_transmission_opportunity`; `sent` is 0 when `tx_ring` is empty. -/
def userOnTransmissionOpportunity (s : ServiceState) (sock : Option ℕ) (sent : ℕ) : Outcome :=
  match sock with
  | none => .ok s
  | some k => do
      let (data, s) ← s.getUserData (some k)
      match data with
      | none => return s
      | some _ =>
          if (s.sockets k).skState = .listen then throw (.transmissionOnListener, s)
          else
            match (s.sockets k).type with
            | .stream =>
                match sent with
                | 0 => return s
                | pages + 1 => return sendLoop k pages s
            | .dgram => return sendmsgLoop k sent s
            | .raw => return sendmsgLoop k sent s

/-- `user_flush_rx` and `user_flush_tx`.  Every element of the receive ring is released
as an mbuf, whatever it is. -/
def userFlushRxTx (s : ServiceState) (k : ℕ) : Outcome := do
  let s := s.call .flushRxTx k
  let (data, s) ← s.getUserData (some k)
  let s := match data with
    | none => s
    | some i => s.setRxRing i .empty
  let (_, s) ← s.getUserData (some k)
  return s

def userOnSocketFatal (s : ServiceState) (k : ℕ) : Outcome := do
  let s ← s.userFlushRxTx k
  let (_, s) ← s.getUserData (some k)
  return s

/-- `kernel_accept`: the new socket shares the user data of the listener, as its `sk`
is a clone of the listener's. -/
def kernelAccept (s : ServiceState) (k : ℕ) : ℕ × ServiceState :=
  (s.next, { s.newSocket
      { type := (s.sockets k).type
        skState := .established
        userData := (s.sockets k).userData
        present := fun _ => false
        holds := 0
        released := false } with
    accepted := s.next :: s.accepted })

def appGlueSetUserData (s : ServiceState) (k : ℕ) (data : Option ℕ) : ServiceState :=
  s.setSocket k fun sock => { sock with userData := data }

def ipaugenblickPostAccepted (s : ServiceState) (buf newsock i : ℕ) : ServiceState :=
  match (s.rxRing i).enqueueBulk (dataRingCapacity + 1) [.accepted buf newsock] with
  | (.nobufs, _) => s.freeCommandBuf buf
  | (_, ring) => s.setRxRing i ring

/-- One round of `user_on_accept`, with a connection to be had. -/
def acceptRound (s : ServiceState) (k : ℕ) : Outcome :=
  let (newsock, s) := s.kernelAccept k
  match s.freeCommandPool with
  | [] => .ok s
  | buf :: pool => do
      let (parent, s) ← ServiceState.getUserData { s with freeCommandPool := pool } (some k)
      let s := s.appGlueSetUserData newsock none
      match parent with
      | none => throw (.nullUserData, s)
      | some i => return s.ipaugenblickPostAccepted buf newsock i

/-- `user_on_accept` while `waiting` connections are to be had. -/
def userOnAccept (k : ℕ) : ℕ → ServiceState → Outcome
  | 0, s => .ok s
  | waiting + 1, s =>
      if (s.sockets k).skState ≠ .listen then .ok s
      else do
        let s ← s.acceptRound k
        userOnAccept k waiting s

/-- The loop of `app_glue_close_socket` that closes the connections still waiting. -/
def closeWaiting (k : ℕ) : ℕ → ServiceState → ServiceState
  | 0, s => s
  | waiting + 1, s =>
      if (s.sockets k).skState ≠ .listen then s
      else
        let (newsock, s) := s.kernelAccept k
        closeWaiting k waiting (s.kernelClose newsock)

def leave (s : ServiceState) (q : SocketQueue) (k : ℕ) : ServiceState :=
  if (s.sockets k).present q then (s.remove q k).count q (· - 1) else s

/-- The first part of `app_glue_close_socket`: out of the four lists of `app_glue.c`. -/
def leaveLists (s : ServiceState) (k waiting : ℕ) : ServiceState :=
  let s := (s.leave .read k).leave .write k
  let s := if (s.sockets k).present .accept then (closeWaiting k waiting s).remove .accept k else s
  s.leave .closed k

def appGlueCloseSocket (s : ServiceState) (k waiting : ℕ) : ServiceState :=
  ((s.leaveLists k waiting).appGlueSetUserData k none).kernelClose k

/-- `app_glue_create_socket` when `sock_create_kern` succeeds. -/
def appGlueCreateSocket (s : ServiceState) (type : SockType) (writeable : Bool) :
    ℕ × ServiceState :=
  let t := s.newSocket { Socket.unborn with type }
  (s.next, if type = .stream then t else t.appGlueSockWriteSpace s.next writeable)

end ServiceState

end IpAugenblick
