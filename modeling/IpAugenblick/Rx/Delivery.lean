/-
# From the stack to the client

Received data waits in the stack until `user_data_available_cbk` moves it to the
connection's `rx_ring`.  Four things start that callback: the read-ready list, and
the RX_KICK, SET_SOCKET_RING and SET_SOCKET_SELECT commands.  This module runs one
socket, the service and the client of its slot, and shows that data never waits
without something that will move it, in every run that keeps clear of three
faults: `app_glue_sock_readable` ignores a stream socket that is not ESTABLISHED
any more, the callback stops at a `kernel_recvmsg` that returns nothing although
more is queued, and a client that gets no command buffer drops its RX_KICK.
-/

import IpAugenblick.Lib.Machine
import IpAugenblick.Rx.Slot
import IpAugenblick.Stack.Sock

namespace IpAugenblick

open Lib

/-! ## The socket -/

/-- A socket as the receive path sees it.  Data is kept by the length of its pieces. -/
structure RxSock where
  type : SockType
  skState : TcpState
  /-- `tp->ucopy.iov`: what was copied on arrival. -/
  ucopy : List ℕ
  skReceiveQueue : List ℕ
  /-- An error is pending in `sk_err`. -/
  skErr : Bool
  /-- `sk_socket` is set: not so for a child that was not accepted yet. -/
  skSocket : Bool
  /-- `sk_user_data` is set: the socket is bound to its slot. -/
  skUserData : Bool
  readQueuePresent : Bool
  deriving DecidableEq, Repr

namespace RxSock

/-- `app_glue_sock_readable`, the socket's `sk_data_ready`. -/
def appGlueSockReadable (k : RxSock) : RxSock :=
  if k.skSocket = false then k
  else if k.skState ≠ .established ∧ k.type = .stream then k
  else { k with readQueuePresent := true }

/-- `tcp_data_queue` and the fast path of `tcp_rcv_established` on an in-sequence
segment of `len` bytes: copied at once when `direct`, queued otherwise; `ofo` are
the out-of-order segments that become in-sequence by it. -/
def tcpDataQueue (k : RxSock) (len : ℕ) (direct fin : Bool) (ofo : List ℕ) : RxSock :=
  let k := if direct then { k with ucopy := k.ucopy ++ [len] }
    else { k with skReceiveQueue := k.skReceiveQueue ++ [len] }
  let k := { k with skReceiveQueue := k.skReceiveQueue ++ ofo }
  let k := if fin then { k with skState := tcpFin k.skState } else k
  k.appGlueSockReadable

/-- `sock_queue_rcv_skb` of a datagram with `len` bytes of payload. -/
def sockQueueRcvSkb (k : RxSock) (len : ℕ) : RxSock :=
  appGlueSockReadable { k with skReceiveQueue := k.skReceiveQueue ++ [len] }

/-- `tcp_recvmsg`: everything received so far, in one chain.  Copying a queued
segment calls `sk_data_ready` again. -/
def tcpRecvmsg (k : RxSock) : ℕ × RxSock :=
  let len := (k.ucopy ++ k.skReceiveQueue).sum
  let k := if 0 < k.skReceiveQueue.sum then k.appGlueSockReadable else k
  (len, { k with ucopy := [], skReceiveQueue := [] })

/-- `udp_recvmsg` and `raw_recvmsg`: a pending error first, then one datagram.
Zero stands for a return value that is not positive. -/
def udpRecvmsg (k : RxSock) : ℕ × RxSock :=
  if k.skErr then (0, { k with skErr := false })
  else
    match k.skReceiveQueue with
    | [] => (0, k)
    | 0 :: rest => (0, { k with skReceiveQueue := rest })
    | len :: rest => (len, appGlueSockReadable { k with skReceiveQueue := rest })

def kernelRecvmsg (k : RxSock) : ℕ × RxSock :=
  if k.type = .stream then k.tcpRecvmsg else k.udpRecvmsg

/-- Received data that was not delivered yet. -/
def HoldsData (k : RxSock) : Prop :=
  if k.type = .stream then 0 < (k.ucopy ++ k.skReceiveQueue).sum else k.skReceiveQueue ≠ []

instance decidableHoldsData (k : RxSock) : Decidable k.HoldsData :=
  inferInstanceAs (Decidable (if k.type = .stream then 0 < (k.ucopy ++ k.skReceiveQueue).sum
    else k.skReceiveQueue ≠ []))

end RxSock

/-! ## The machine -/

/-- The commands that matter to the receive path of one slot. -/
inductive RxCommand
  | /-- RX_KICK for the slot. -/
    rxKick
  | /-- SET_SOCKET_RING: bind the accepted socket to the slot. -/
    setSocketRing
  | /-- SET_SOCKET_SELECT for the slot. -/
    setSocketSelect
  | /-- Anything else. -/
    other
  deriving DecidableEq, Repr

inductive CbkPc
  | /-- Between two steps. -/
    idle
  | /-- In the loop of `user_data_available_cbk`. -/
    deliver (ringFree : ℕ)
  deriving DecidableEq, Repr

/-- One socket and its slot, the service, and the client of the slot. -/
structure PathState where
  sock : RxSock
  slot : Slot ℕ
  commands : Ring RxCommand commandRingCapacity
  service : CbkPc
  /-- The dequeue under way, if there is one. -/
  client : Option (DequeuePc ℕ)

inductive PathStep
  | /-- A TCP segment is received. -/
    segment (len : ℕ) (direct fin : Bool) (ofo : List ℕ)
  | /-- A datagram is received. -/
    datagram (len : ℕ)
  | /-- `sk_err` is set. -/
    error
  | /-- The TCP state changes for another reason. -/
    stateChange (st : TcpState)
  | /-- `user_on_accept` gives a child its `struct socket`. -/
    userOnAccept
  | /-- `process_rx_ready_sockets` reaches the socket. -/
    processRxReady
  | /-- `process_commands`. -/
    processCommands
  | /-- One round of the loop of `user_data_available_cbk`. -/
    recvmsg
  | /-- A client enqueues a command. -/
    enqueueCommand (cmd : RxCommand)
  | /-- The client calls `ipaugenblick_dequeue_rx_buf`. -/
    dequeue
  | /-- The next access of the dequeue under way. -/
    advance
  | /-- The end of the dequeue, with or without a free command buffer for RX_KICK. -/
    kick (gotCommand : Bool)
  deriving DecidableEq, Repr

namespace PathState

/-- The beginning of `user_data_available_cbk`. -/
def userDataAvailableCbk (s : PathState) : PathState :=
  if s.sock.skUserData then { s with service := .deliver s.slot.ring.freeCount } else s

/-- One round of the loop of `user_data_available_cbk`. -/
def deliver (s : PathState) : ℕ → PathState
  | 0 => { s with service := .idle }
  | ringFree + 1 =>
      match s.sock.kernelRecvmsg with
      | (0, sock) => { s with sock, service := .idle }
      | (rc, sock) =>
          match s.slot.ring.enqueueBulk 1 [rc] with
          | (.nobufs, _) => { s with sock, service := .idle }
          | (_, ring) =>
              { s with sock, slot := { s.slot with ring }, service := .deliver ringFree }

/-- `process_commands` on a command that was taken from the ring. -/
def processCommand (s : PathState) : RxCommand → PathState
  | .rxKick => s.userDataAvailableCbk
  | .setSocketRing => userDataAvailableCbk { s with sock := { s.sock with skUserData := true } }
  | .setSocketSelect => s.userDataAvailableCbk
  | .other => s

end PathState

/-- One socket of type `type` in state `st`, opened by its client or still to be accepted.  Data
may come in at any step; what can go wrong is that it waits and nobody is going to look. -/
def pathMachine (type : SockType) (st : TcpState) (opened : Bool) : Machine PathState PathStep where
  init :=
    { sock :=
        { type, skState := st, ucopy := [], skReceiveQueue := [], skErr := false
          skSocket := opened, skUserData := opened, readQueuePresent := false }
      slot := { ring := .empty, cache := .empty, readReadyToApp := false }
      commands := .empty, service := .idle, client := none }
  step s
    | .segment len direct fin ofo =>
        if s.service = .idle ∧ s.sock.type = .stream ∧
            (direct = true → s.sock.skReceiveQueue = []) then
          some { s with sock := s.sock.tcpDataQueue len direct fin ofo }
        else none
    | .datagram len =>
        if s.service = .idle ∧ s.sock.type ≠ .stream then
          some { s with sock := s.sock.sockQueueRcvSkb len }
        else none
    | .error =>
        if s.service = .idle then some { s with sock := { s.sock with skErr := true } } else none
    | .stateChange st =>
        if s.service = .idle ∧ st ≠ .listen then
          some { s with sock := { s.sock with skState := st } }
        else none
    | .userOnAccept =>
        if s.service = .idle then some { s with sock := { s.sock with skSocket := true } } else none
    | .processRxReady =>
        if s.service = .idle ∧ s.sock.readQueuePresent = true then
          some (PathState.userDataAvailableCbk
            { s with sock := { s.sock with readQueuePresent := false } })
        else none
    | .processCommands =>
        if s.service = .idle then
          match s.commands.dequeue with
          | none => none
          | some (cmd, commands) => some (PathState.processCommand { s with commands } cmd)
        else none
    | .recvmsg =>
        match s.service with
        | .idle => none
        | .deliver ringFree => some (s.deliver ringFree)
    | .enqueueCommand cmd =>
        -- SET_SOCKET_RING names a socket that was handed to the client before.
        if cmd = .setSocketRing → s.sock.skSocket = true then
          some { s with commands := (s.commands.enqueueBulk (commandRingCapacity + 1) [cmd]).2 }
        else none
    | .dequeue =>
        match s.client with
        | none => some { s with client := some .start }
        | some _ => none
    | .advance =>
        match s.client with
        | none => none
        | some (.kick _) => none
        | some pc =>
            let next := s.slot.dequeueStep pc
            some { s with slot := next.1, client := some next.2 }
    | .kick gotCommand =>
        match s.client with
        | some (.kick _) =>
            if gotCommand then
              some { s with
                commands := (s.commands.enqueueBulk (commandRingCapacity + 1) [.rxKick]).2
                client := none }
            else some { s with client := none }
        | _ => none

/-! ## What keeps data moving -/

/-- Something will move the data of the socket: the read-ready list, room that the
client will make in a full ring, an RX_KICK, or a dequeue that will send one. -/
def Triggered (s : PathState) : Prop :=
  s.sock.readQueuePresent = true ∨ s.slot.ring.freeCount = 0 ∨ .rxKick ∈ s.commands.items ∨
    s.client.isSome

/-- The segment brings data to a bound socket and leaves it in a state other than
ESTABLISHED. -/
def declined (s : PathState) (len : ℕ) (fin : Bool) (ofo : List ℕ) : Prop :=
  s.sock.skUserData = true ∧ 0 < len + ofo.sum ∧
    (if fin then tcpFin s.sock.skState else s.sock.skState) ≠ .established

/-- The next `kernel_recvmsg` returns nothing and leaves datagrams queued. -/
def cutShort (s : PathState) : Prop :=
  s.service ≠ .deliver 0 ∧ s.sock.type ≠ .stream ∧
    (s.sock.skErr = true ∧ s.sock.skReceiveQueue ≠ [] ∨
      s.sock.skErr = false ∧ s.sock.skReceiveQueue.head? = some 0 ∧
        s.sock.skReceiveQueue.tail ≠ [])

/-- The steps on which a run keeps clear of the three faults. -/
def deliveryOk (s : PathState) : PathStep → Prop
  | .segment len _ fin ofo => declined s len fin ofo → Triggered s
  | .recvmsg => cutShort s → Triggered s
  | .kick gotCommand => gotCommand = true ∧ 0 < s.commands.freeCount
  | _ => True

instance decidableTriggered (s : PathState) : Decidable (Triggered s) :=
  inferInstanceAs (Decidable (_ ∨ _ ∨ _ ∨ _))

instance decidableDeclined (s : PathState) (len : ℕ) (fin : Bool) (ofo : List ℕ) :
    Decidable (declined s len fin ofo) :=
  inferInstanceAs (Decidable (_ ∧ _ ∧ _))

instance decidableCutShort (s : PathState) : Decidable (cutShort s) :=
  inferInstanceAs (Decidable (_ ∧ _ ∧ (_ ∧ _ ∨ _ ∧ _ ∧ _)))

instance decidableDeliveryOk (s : PathState) : (a : PathStep) → Decidable (deliveryOk s a)
  | .segment len _ fin ofo => inferInstanceAs (Decidable (declined s len fin ofo → Triggered s))
  | .recvmsg => inferInstanceAs (Decidable (cutShort s → Triggered s))
  | .kick gotCommand =>
      inferInstanceAs (Decidable (gotCommand = true ∧ 0 < s.commands.freeCount))
  | .datagram _ => isTrue trivial
  | .error => isTrue trivial
  | .stateChange _ => isTrue trivial
  | .userOnAccept => isTrue trivial
  | .processRxReady => isTrue trivial
  | .processCommands => isTrue trivial
  | .enqueueCommand _ => isTrue trivial
  | .dequeue => isTrue trivial
  | .advance => isTrue trivial

/-! ## The parts -/

namespace RxSock

variable (k : RxSock)

/-- `sk_data_ready` changes nothing but the presence in the read-ready list. -/
theorem appGlueSockReadable_eq :
    k.appGlueSockReadable = k ∨ k.appGlueSockReadable = { k with readQueuePresent := true } := by
  unfold appGlueSockReadable
  split
  · exact .inl rfl
  · split
    · exact .inl rfl
    · exact .inr rfl

/-- It inserts every socket that is accepted and not a stream out of ESTABLISHED. -/
theorem appGlueSockReadable_present (hsocket : k.skSocket = true)
    (hstate : k.skState = .established ∨ k.type ≠ .stream) :
    k.appGlueSockReadable.readQueuePresent = true := by
  unfold appGlueSockReadable
  rw [if_neg (by simp [hsocket]), if_neg]
  rintro ⟨hne, htype⟩
  rcases hstate with hstate | hstate
  · exact hne hstate
  · exact hstate htype

/-- What `sk_data_ready` keeps. -/
theorem appGlueSockReadable_keeps :
    k.appGlueSockReadable.type = k.type ∧ k.appGlueSockReadable.skUserData = k.skUserData ∧
      k.appGlueSockReadable.skSocket = k.skSocket ∧ k.appGlueSockReadable.ucopy = k.ucopy ∧
      k.appGlueSockReadable.skReceiveQueue = k.skReceiveQueue ∧
      (k.readQueuePresent = true → k.appGlueSockReadable.readQueuePresent = true) := by
  rcases k.appGlueSockReadable_eq with heq | heq
  · rw [heq]
    exact ⟨rfl, rfl, rfl, rfl, rfl, fun h => h⟩
  · rw [heq]
    exact ⟨rfl, rfl, rfl, rfl, rfl, fun _ => rfl⟩

/-- What a received segment does to the socket. -/
structure Queued (len : ℕ) (fin : Bool) (ofo : List ℕ) (k' : RxSock) : Prop where
  type : k'.type = k.type
  skUserData : k'.skUserData = k.skUserData
  skSocket : k'.skSocket = k.skSocket
  total : (k'.ucopy ++ k'.skReceiveQueue).sum = (k.ucopy ++ k.skReceiveQueue).sum + (len + ofo.sum)
  kept : k.readQueuePresent = true → k'.readQueuePresent = true
  present : k.skSocket = true → (if fin then tcpFin k.skState else k.skState) = .established →
    k'.readQueuePresent = true

theorem tcpDataQueue_spec (len : ℕ) (direct fin : Bool) (ofo : List ℕ) :
    k.Queued len fin ofo (k.tcpDataQueue len direct fin ofo) := by
  obtain ⟨j, hj⟩ : ∃ j : RxSock, j = { k with
      ucopy := if direct then k.ucopy ++ [len] else k.ucopy
      skReceiveQueue := (if direct then k.skReceiveQueue else k.skReceiveQueue ++ [len]) ++ ofo
      skState := if fin then tcpFin k.skState else k.skState } := ⟨_, rfl⟩
  have heq : k.tcpDataQueue len direct fin ofo = j.appGlueSockReadable := by
    rw [hj]
    unfold tcpDataQueue
    cases direct <;> cases fin <;> rfl
  obtain ⟨htype, hdata, hsocket, hucopy, hqueue, hkept⟩ := j.appGlueSockReadable_keeps
  rw [heq]
  exact
    { type := by rw [htype, hj]
      skUserData := by rw [hdata, hj]
      skSocket := by rw [hsocket, hj]
      total := by
        rw [hucopy, hqueue, hj]
        cases direct
        · simp only [Bool.false_eq_true, if_false, List.sum_append, List.sum_singleton]
          omega
        · simp only [if_true, List.sum_append, List.sum_singleton]
          omega
      kept := by
        intro hpresent
        apply hkept
        rw [hj]
        exact hpresent
      present := by
        intro hsock hstate
        apply j.appGlueSockReadable_present
        · rw [hj]
          exact hsock
        · left
          rw [hj]
          exact hstate }

/-- What `kernel_recvmsg` does to the socket. -/
structure Taken (k' : RxSock) : Prop where
  type : k'.type = k.type
  skUserData : k'.skUserData = k.skUserData
  skSocket : k'.skSocket = k.skSocket
  kept : k.readQueuePresent = true → k'.readQueuePresent = true

theorem kernelRecvmsg_taken : k.Taken k.kernelRecvmsg.2 := by
  unfold kernelRecvmsg
  split
  · unfold tcpRecvmsg
    dsimp only
    split
    · obtain ⟨htype, hdata, hsocket, -, -, hkept⟩ := k.appGlueSockReadable_keeps
      exact ⟨htype, hdata, hsocket, hkept⟩
    · exact ⟨rfl, rfl, rfl, fun h => h⟩
  · unfold udpRecvmsg
    split
    · exact ⟨rfl, rfl, rfl, fun h => h⟩
    · split
      · exact ⟨rfl, rfl, rfl, fun h => h⟩
      · exact ⟨rfl, rfl, rfl, fun h => h⟩
      · next rest _ _ =>
        obtain ⟨htype, hdata, hsocket, -, -, hkept⟩ :=
          appGlueSockReadable_keeps { k with skReceiveQueue := rest }
        exact ⟨htype, hdata, hsocket, hkept⟩

/-- A `kernel_recvmsg` that returns nothing leaves nothing, unless it is cut short. -/
theorem holdsData_of_recvmsg_zero (hzero : k.kernelRecvmsg.1 = 0)
    (hdata : k.kernelRecvmsg.2.HoldsData) :
    k.type ≠ .stream ∧ (k.skErr = true ∧ k.skReceiveQueue ≠ [] ∨
      k.skErr = false ∧ k.skReceiveQueue.head? = some 0 ∧ k.skReceiveQueue.tail ≠ []) := by
  have htype := k.kernelRecvmsg_taken.type
  unfold HoldsData at hdata
  rw [htype] at hdata
  by_cases hstream : k.type = .stream
  · rw [if_pos hstream] at hdata
    unfold kernelRecvmsg at hdata
    rw [if_pos hstream] at hdata
    simp [tcpRecvmsg] at hdata
  · rw [if_neg hstream] at hdata
    refine ⟨hstream, ?_⟩
    unfold kernelRecvmsg at hdata hzero
    rw [if_neg hstream] at hdata hzero
    unfold udpRecvmsg at hdata hzero
    cases herr : k.skErr with
    | true =>
        rw [herr] at hdata
        exact .inl ⟨rfl, hdata⟩
    | false =>
        rw [herr] at hdata hzero
        simp only [Bool.false_eq_true, if_false] at hdata hzero
        cases hqueue : k.skReceiveQueue with
        | nil =>
            rw [hqueue] at hdata
            exact absurd hqueue hdata
        | cons len rest =>
            cases len with
            | zero =>
                rw [hqueue] at hdata
                exact .inr ⟨rfl, rfl, hdata⟩
            | succ len =>
                rw [hqueue] at hzero
                cases hzero

end RxSock

/-- A dequeue never takes room away from the ring. -/
theorem freeCount_le_dequeueStep {α : Type} (slot : Slot α) (pc : DequeuePc α) :
    slot.ring.freeCount ≤ (slot.dequeueStep pc).1.ring.freeCount := by
  unfold Slot.dequeueStep
  split
  · split <;> exact le_refl _
  · exact le_refl _
  · exact le_refl _
  · simp only [Ring.freeCount, Ring.items_dequeueBurst, List.length_drop]
    omega
  · exact le_refl _
  · split <;> exact le_refl _
  · exact le_refl _

/-! ## The invariant -/

/-- Nothing is stranded between steps, and the room the callback counted is still
the room in the ring unless a client is about to kick. -/
structure DeliveryInv (s : PathState) : Prop where
  socket : s.sock.skUserData = true ∨ .setSocketRing ∈ s.commands.items → s.sock.skSocket = true
  quiet : s.service = .idle → s.sock.skUserData = true → s.sock.HoldsData → Triggered s
  busy : ∀ ringFree, s.service = .deliver ringFree → ringFree ≤ s.slot.ring.freeCount ∧
    (ringFree = s.slot.ring.freeCount ∨ .rxKick ∈ s.commands.items ∨ s.client.isSome)

section Steps

variable {s t : PathState}

theorem mem_enqueueCommand {cmd cmd' : RxCommand} {commands : Ring RxCommand commandRingCapacity}
    {watermark : ℕ} (h : cmd ∈ commands.items) :
    cmd ∈ (commands.enqueueBulk watermark [cmd']).2.items := by
  rw [Ring.items_enqueueBulk]
  split
  · exact h
  · exact List.mem_append_left _ h

theorem mem_of_enqueueCommand {cmd cmd' : RxCommand}
    {commands : Ring RxCommand commandRingCapacity} {watermark : ℕ}
    (h : cmd ∈ (commands.enqueueBulk watermark [cmd']).2.items) :
    cmd ∈ commands.items ∨ cmd = cmd' := by
  rw [Ring.items_enqueueBulk] at h
  split at h
  · exact .inl h
  · simpa using h

/-- The start of the callback on a bound socket, or on one without a slot. -/
theorem DeliveryInv.callback (hsocket : s.sock.skUserData = true ∨
      .setSocketRing ∈ s.commands.items → s.sock.skSocket = true)
    (hidle : s.service = .idle) : DeliveryInv s.userDataAvailableCbk := by
  unfold PathState.userDataAvailableCbk
  split
  next =>
      exact
        { socket := hsocket
          quiet := (nomatch ·)
          busy := by
            intro ringFree hbusy
            obtain rfl := CbkPc.deliver.inj hbusy
            exact ⟨le_refl _, .inl rfl⟩ }
  next hunbound =>
      exact
        { socket := hsocket
          quiet := fun _ hbound => absurd hbound hunbound
          busy := by
            intro ringFree hbusy
            rw [hidle] at hbusy
            cases hbusy }

theorem DeliveryInv.segment {len : ℕ} {fin : Bool} {ofo : List ℕ} {sock : RxSock}
    (h : DeliveryInv s) (hidle : s.service = .idle) (hstream : s.sock.type = .stream)
    (hqueued : s.sock.Queued len fin ofo sock) (hok : declined s len fin ofo → Triggered s) :
    DeliveryInv { s with sock } where
  socket := by
    intro hbound
    show sock.skSocket = true
    rw [hqueued.skSocket]
    apply h.socket
    exact hbound.imp_left fun hdata => by rw [← hqueued.skUserData]; exact hdata
  quiet := by
    intro _ hbound hdata
    have hkeep : Triggered s → Triggered { s with sock } := fun htrig => htrig.imp_left hqueued.kept
    have huser : s.sock.skUserData = true := by
      rw [← hqueued.skUserData]
      exact hbound
    by_cases hstate : (if fin then tcpFin s.sock.skState else s.sock.skState) = .established
    · exact .inl (hqueued.present (h.socket (.inl huser)) hstate)
    · by_cases hbrings : 0 < len + ofo.sum
      · exact hkeep (hok ⟨huser, hbrings, hstate⟩)
      · apply hkeep
        apply h.quiet hidle huser
        unfold RxSock.HoldsData at hdata ⊢
        rw [hqueued.type, if_pos hstream, hqueued.total] at hdata
        rw [if_pos hstream]
        omega
  busy := by
    intro ringFree hbusy
    exact h.busy ringFree hbusy

theorem DeliveryInv.datagram (len : ℕ) (h : DeliveryInv s) (hdgram : s.sock.type ≠ .stream) :
    DeliveryInv { s with sock := s.sock.sockQueueRcvSkb len } := by
  obtain ⟨-, hdata, hsocket, -, -, -⟩ := RxSock.appGlueSockReadable_keeps
    { s.sock with skReceiveQueue := s.sock.skReceiveQueue ++ [len] }
  exact
    { socket := by
        intro hbound
        show (s.sock.sockQueueRcvSkb len).skSocket = true
        rw [RxSock.sockQueueRcvSkb, hsocket]
        apply h.socket
        exact hbound.imp_left fun huser => by rw [← hdata]; exact huser
      quiet := by
        intro _ hbound _
        left
        apply RxSock.appGlueSockReadable_present
        · apply h.socket
          left
          rw [← hdata]
          exact hbound
        · exact .inr hdgram
      busy := h.busy }

/-- One round of the callback's loop. -/
theorem DeliveryInv.deliver {ringFree : ℕ} (h : DeliveryInv s)
    (hbusy : s.service = .deliver ringFree) (hok : cutShort s → Triggered s) :
    DeliveryInv (s.deliver ringFree) := by
  obtain ⟨hroom, hstale⟩ := h.busy ringFree hbusy
  cases ringFree with
  | zero =>
      exact
        { socket := h.socket
          quiet := by
            intro _ _ _
            rcases hstale with hfull | hkick
            · exact .inr (.inl hfull.symm)
            · exact .inr (.inr hkick)
          busy := fun _ hdeliver => nomatch hdeliver }
  | succ ringFree =>
      have htaken := s.sock.kernelRecvmsg_taken
      have hzero := s.sock.holdsData_of_recvmsg_zero
      unfold PathState.deliver
      obtain ⟨rc, sock, hrecv⟩ : ∃ rc sock, s.sock.kernelRecvmsg = (rc, sock) := ⟨_, _, rfl⟩
      rw [hrecv] at htaken hzero ⊢
      have hsocket : sock.skUserData = true ∨ .setSocketRing ∈ s.commands.items →
          sock.skSocket = true := by
        rw [htaken.skUserData, htaken.skSocket]
        exact h.socket
      cases rc with
      | zero =>
          exact
            { socket := hsocket
              quiet := by
                intro _ _ hdata
                have hcut : cutShort s := ⟨by rw [hbusy]; simp, hzero rfl hdata⟩
                exact (hok hcut).imp_left htaken.kept
              busy := fun _ hdeliver => nomatch hdeliver }
      | succ rc =>
          have hfits : ¬ s.slot.ring.freeCount < [rc + 1].length := by
            rw [List.length_singleton]
            omega
          have hitems := Ring.items_enqueueBulk 1 s.slot.ring [rc + 1]
          rw [if_neg hfits] at hitems
          have hcode : (s.slot.ring.enqueueBulk 1 [rc + 1]).1 ≠ .nobufs := by
            unfold Ring.enqueueBulk
            rw [if_neg hfits]
            split <;> simp
          obtain ⟨code, ring, hbulk⟩ :
            ∃ code ring, s.slot.ring.enqueueBulk 1 [rc + 1] = (code, ring) := ⟨_, _, rfl⟩
          simp only [hbulk] at hitems hcode ⊢
          have hfree : ring.freeCount = s.slot.ring.freeCount - 1 := by
            rw [Ring.freeCount, Ring.freeCount, hitems, List.length_append, List.length_singleton]
            omega
          have hnext : DeliveryInv { s with
              sock, slot := { s.slot with ring }, service := .deliver ringFree } :=
            { socket := hsocket
              quiet := (nomatch ·)
              busy := by
                intro k hk
                obtain rfl := CbkPc.deliver.inj hk
                show ringFree ≤ ring.freeCount ∧ (ringFree = ring.freeCount ∨ _)
                rw [hfree]
                refine ⟨by omega, ?_⟩
                exact hstale.imp_left fun heq => by omega }
          cases code with
          | nobufs => exact absurd rfl hcode
          | success => exact hnext
          | quota => exact hnext

theorem DeliveryInv.command {cmd : RxCommand} {commands : Ring RxCommand commandRingCapacity}
    (h : DeliveryInv s) (hidle : s.service = .idle)
    (hitems : s.commands.items = cmd :: commands.items) :
    DeliveryInv (PathState.processCommand { s with commands } cmd) := by
  have htail : ∀ {c : RxCommand}, c ∈ commands.items → c ∈ s.commands.items := by
    intro c hc
    rw [hitems]
    exact List.mem_cons_of_mem _ hc
  have hsocket : s.sock.skUserData = true ∨ .setSocketRing ∈ commands.items →
      s.sock.skSocket = true := fun hbound => h.socket (hbound.imp_right htail)
  cases cmd with
  | rxKick => exact .callback hsocket hidle
  | setSocketRing =>
      refine .callback (fun _ => ?_) hidle
      apply h.socket
      right
      simp [hitems]
  | setSocketSelect => exact .callback hsocket hidle
  | other =>
      exact
        { socket := hsocket
          quiet := by
            intro _ hbound hdata
            rcases h.quiet hidle hbound hdata with hpresent | hfull | hkick | hclient
            · exact .inl hpresent
            · exact .inr (.inl hfull)
            · have hleft : RxCommand.rxKick ∈ commands.items := by simpa [hitems] using hkick
              exact .inr (.inr (.inl hleft))
            · exact .inr (.inr (.inr hclient))
          busy := by
            intro ringFree hbusy
            rw [PathState.processCommand, hidle] at hbusy
            cases hbusy }

theorem DeliveryInv.step {type : SockType} {st : TcpState} {opened : Bool} {a : PathStep}
    (h : DeliveryInv s) (hok : deliveryOk s a)
    (hstep : (pathMachine type st opened).step s a = some t) : DeliveryInv t := by
  cases a with
  | segment len direct fin ofo =>
      simp only [pathMachine] at hstep
      split at hstep
      next hguard =>
          obtain rfl := Option.some.inj hstep
          exact h.segment hguard.1 hguard.2.1 (s.sock.tcpDataQueue_spec len direct fin ofo) hok
      next => cases hstep
  | datagram len =>
      simp only [pathMachine] at hstep
      split at hstep
      next hguard =>
          obtain rfl := Option.some.inj hstep
          exact h.datagram len hguard.2
      next => cases hstep
  | error =>
      simp only [pathMachine] at hstep
      split at hstep
      next =>
          obtain rfl := Option.some.inj hstep
          exact { socket := h.socket, quiet := h.quiet, busy := h.busy }
      next => cases hstep
  | stateChange st =>
      simp only [pathMachine] at hstep
      split at hstep
      next =>
          obtain rfl := Option.some.inj hstep
          exact { socket := h.socket, quiet := h.quiet, busy := h.busy }
      next => cases hstep
  | userOnAccept =>
      simp only [pathMachine] at hstep
      split at hstep
      next =>
          obtain rfl := Option.some.inj hstep
          exact { socket := fun _ => rfl, quiet := h.quiet, busy := h.busy }
      next => cases hstep
  | processRxReady =>
      simp only [pathMachine] at hstep
      split at hstep
      next hguard =>
          obtain rfl := Option.some.inj hstep
          exact .callback h.socket hguard.1
      next => cases hstep
  | processCommands =>
      simp only [pathMachine] at hstep
      split at hstep
      next hidle =>
          split at hstep
          next => cases hstep
          next cmd commands hdequeue =>
              obtain rfl := Option.some.inj hstep
              exact h.command hidle ((Ring.dequeue_eq_some_iff _ _ _).mp hdequeue)
      next => cases hstep
  | recvmsg =>
      simp only [pathMachine] at hstep
      split at hstep
      next => cases hstep
      next ringFree hbusy =>
          obtain rfl := Option.some.inj hstep
          exact h.deliver hbusy hok
  | enqueueCommand cmd =>
      simp only [pathMachine] at hstep
      split at hstep
      next hguard =>
          obtain rfl := Option.some.inj hstep
          exact
            { socket := by
                rintro (hbound | hmem)
                · exact h.socket (.inl hbound)
                · rcases mem_of_enqueueCommand hmem with hold | hnew
                  · exact h.socket (.inr hold)
                  · exact hguard hnew.symm
              quiet := by
                intro hidle hbound hdata
                exact (h.quiet hidle hbound hdata).imp_right
                  (Or.imp_right (Or.imp_left mem_enqueueCommand))
              busy := by
                intro ringFree hbusy
                obtain ⟨hroom, hstale⟩ := h.busy ringFree hbusy
                exact ⟨hroom, hstale.imp_right (Or.imp_left mem_enqueueCommand)⟩ }
      next => cases hstep
  | dequeue =>
      simp only [pathMachine] at hstep
      split at hstep
      next =>
          obtain rfl := Option.some.inj hstep
          exact
            { socket := h.socket
              quiet := fun _ _ _ => .inr (.inr (.inr rfl))
              busy := fun ringFree hbusy => ⟨(h.busy ringFree hbusy).1, .inr (.inr rfl)⟩ }
      next => cases hstep
  | advance =>
      simp only [pathMachine] at hstep
      split at hstep
      next => cases hstep
      next => cases hstep
      next pc _ _ =>
          obtain rfl := Option.some.inj hstep
          exact
            { socket := h.socket
              quiet := fun _ _ _ => .inr (.inr (.inr rfl))
              busy := fun ringFree hbusy =>
                ⟨(h.busy ringFree hbusy).1.trans (freeCount_le_dequeueStep _ _),
                  .inr (.inr rfl)⟩ }
  | kick gotCommand =>
      obtain ⟨rfl, hroom⟩ := hok
      have hmem : RxCommand.rxKick ∈
          (s.commands.enqueueBulk (commandRingCapacity + 1) [.rxKick]).2.items := by
        rw [Ring.items_enqueueBulk, if_neg (by rw [List.length_singleton]; omega)]
        simp
      simp only [pathMachine] at hstep
      split at hstep
      next =>
          obtain rfl := Option.some.inj hstep
          exact
            { socket := by
                rintro (hbound | hring)
                · exact h.socket (.inl hbound)
                · rcases mem_of_enqueueCommand hring with hold | hnew
                  · exact h.socket (.inr hold)
                  · cases hnew
              quiet := fun _ _ _ => .inr (.inr (.inl hmem))
              busy := fun ringFree hbusy => ⟨(h.busy ringFree hbusy).1, .inr (.inl hmem)⟩ }
      next => cases hstep

end Steps

/-- **No stranded data.**  In every run that keeps clear of the three faults,
whenever the service is between steps and a bound socket holds undelivered data,
the socket is in the read-ready list, its ring is full, an RX_KICK is queued, or a
dequeue that will send one is under way. -/
theorem no_stranded_data {type : SockType} {st : TcpState} {opened : Bool} {s : PathState}
    (hreach : (pathMachine type st opened).ReachableWhere deliveryOk s)
    (hidle : s.service = .idle) (hbound : s.sock.skUserData = true) (hdata : s.sock.HoldsData) :
    Triggered s := by
  have hinv : DeliveryInv s := by
    refine (pathMachine type st opened).invariant_of_step ?_ ?_ hreach
    · exact
        { socket := by
            rintro (hbound | hmem)
            · exact hbound
            · simp [pathMachine] at hmem
          quiet := by
            intro _ _ hdata
            simp [RxSock.HoldsData, pathMachine] at hdata
          busy := fun _ hbusy => nomatch hbusy }
    · intro s a t h hok hstep
      exact h.step hok hstep
  exact hinv.quiet hidle hbound hdata

/-- An accepted connection: data before the binding, a FIN while the socket is in
the read-ready list, and more data than one round of the callback moves. -/
theorem no_stranded_data_early_data :
    ∃ s, (pathMachine .stream .established false).ReachableWhere deliveryOk s ∧
      s.service = .idle ∧ s.sock.skUserData = true ∧ s.sock.HoldsData ∧ Triggered s := by
  have hrun : (((pathMachine .stream .established false).restrict deliveryOk).run
      [.segment 5 true false [], .userOnAccept, .enqueueCommand .setSocketRing, .processCommands,
        .recvmsg, .recvmsg, .segment 3 true false [], .segment 2 true true []]).map
      (fun s => (s.service, s.sock)) = some (.idle,
        { type := .stream, skState := .closeWait, ucopy := [3, 2], skReceiveQueue := []
          skErr := false, skSocket := true, skUserData := true, readQueuePresent := true }) := by
    decide +kernel
  obtain ⟨s, hs, hview⟩ := Option.map_eq_some_iff.mp hrun
  obtain ⟨hidle, hsock⟩ := Prod.mk.inj hview
  have hreach := (pathMachine .stream .established false).reachableWhere_of_run hs
  have hbound : s.sock.skUserData = true := by rw [hsock]
  have hdata : s.sock.HoldsData := by
    rw [hsock]
    decide
  exact ⟨s, hreach, hidle, hbound, hdata, no_stranded_data hreach hidle hbound hdata⟩

/-- Data that comes with a FIN stays in the stack: the state is CLOSE_WAIT before
`sk_data_ready` is called. -/
theorem data_with_fin_is_stranded :
    ∃ s, (pathMachine .stream .close true).run
        [.stateChange .established, .segment 5 true true []] = some s ∧
      s.service = .idle ∧ s.sock.skUserData = true ∧ s.sock.HoldsData ∧ ¬ Triggered s := by
  refine ⟨_, rfl, rfl, rfl, ?_, ?_⟩
  · show 0 < [5].sum
    decide
  · decide

end IpAugenblick
