/-
# Receiving TCP segments

The receive side of an established connection: `tcp_rcv_established` with its
header prediction, `tcp_data_queue`, the out-of-order queue, and `tcp_recvmsg`.
Three paths lead a segment to the reader.  Header prediction and
`tcp_data_queue` link the mbuf of a segment that is next in order straight into
`tp->ucopy.iov` when everything before it has been copied; every other segment
is queued, and `tcp_recvmsg` links the mbufs of the queue behind those.

Sequence numbers are the 32-bit words of the source.  A received skb stands for
one frame in one mbuf, whose payload may be followed by bytes that are not part
of it.  Urgent data is left out: `urg_data` is zero throughout, and so are the
statistics and the acknowledgement timers.  `skb_try_coalesce` is compiled out
in this stack, so no skb ever absorbs another.
-/

import IpAugenblick.Lib.Serial
import IpAugenblick.Lib.Machine
import IpAugenblick.Client.Receive

namespace IpAugenblick

open Lib Lib.Serial

/-- `__u32` sequence numbers. -/
abbrev SeqNum := BitVec 32

/-- `after(seq2, seq1)`. -/
def after (seq2 seq1 : SeqNum) : Bool := before seq1 seq2

/-- A received segment.  `off` is where its bytes lie in the peer's stream; the code never reads
it. -/
structure RcvSkb where
  seq : SeqNum
  data : List UInt8
  fin : Bool
  /-- What the mbuf holds behind the IP payload. -/
  trailer : List UInt8
  truesize : ℕ
  off : ℕ
  /-- `build_skb` counts the whole frame into `truesize`. -/
  data_le_truesize : data.length ≤ truesize
deriving DecidableEq

namespace RcvSkb

/-- `TCP_SKB_CB(skb)->end_seq`: the FIN takes a number of its own. -/
def endSeq (skb : RcvSkb) : SeqNum :=
  skb.seq + BitVec.ofNat 32 (skb.data.length + if skb.fin then 1 else 0)

end RcvSkb

def queueBytes (queue : List RcvSkb) : ℕ := (queue.map fun skb => skb.data.length).sum

def queueTruesize (queue : List RcvSkb) : ℕ := (queue.map RcvSkb.truesize).sum

/-- The receive side of `struct tcp_sock` and its `struct sock`.  `received` is `rcv_nxt` counted
from the initial sequence number without wrapping; the code never reads it. -/
structure TcpRcv where
  rcvNxt : SeqNum
  copiedSeq : SeqNum
  rcvWup : SeqNum
  rcvWnd : BitVec 32
  /-- `pred_flags` is not zero. -/
  predFlags : Bool
  /-- `ucopy.len`. -/
  ucopyLen : ℕ
  /-- The mbufs linked in `ucopy.iov`. -/
  iov : List (List UInt8)
  /-- `ucopy.iov.len`. -/
  iovLen : ℕ
  receiveQueue : List RcvSkb
  outOfOrderQueue : List RcvSkb
  skRcvbuf : ℕ
  received : ℕ
deriving DecidableEq

namespace TcpRcv

/-- `sk_rmem_alloc`: what `skb_set_owner_r` charged and `sock_rfree` has not given back. -/
def skRmemAlloc (tp : TcpRcv) : ℕ :=
  queueTruesize tp.receiveQueue + queueTruesize tp.outOfOrderQueue

/-- `tp->rcv_nxt = end_seq`. -/
def advance (tp : TcpRcv) (endSeq : SeqNum) : TcpRcv :=
  { tp with rcvNxt := endSeq, received := tp.received + (endSeq - tp.rcvNxt).toNat }

def tcpReceiveWindow (tp : TcpRcv) : BitVec 32 :=
  let win := tp.rcvWup + tp.rcvWnd - tp.rcvNxt
  if win.msb then 0 else win

def tcpSequence (tp : TcpRcv) (seq endSeq : SeqNum) : Bool :=
  !before endSeq tp.rcvWup && !after seq (tp.rcvNxt + tp.tcpReceiveWindow)

def tcpFastPathCheck (tp : TcpRcv) : TcpRcv :=
  if tp.outOfOrderQueue.isEmpty && tp.rcvWnd != 0 && tp.skRmemAlloc < tp.skRcvbuf then
    { tp with predFlags := true }
  else tp

/-- `memcpy_toiovec`: the mbuf is linked as it is, `len` bytes are counted. -/
def memcpyToiovec (tp : TcpRcv) (mbuf : List UInt8) (len : ℕ) : TcpRcv :=
  { tp with iov := tp.iov ++ [mbuf], iovLen := tp.iovLen + len }

/-- `skb_copy_datagram_iovec` of everything from `offset` on. -/
def skbCopyDatagramIovec (tp : TcpRcv) (skb : RcvSkb) (offset : ℕ) : TcpRcv :=
  if offset < skb.data.length then
    tp.memcpyToiovec ((skb.data ++ skb.trailer).drop offset) (skb.data.length - offset)
  else tp

/-- Linking an mbuf changes the iovec only. -/
theorem skbCopyDatagramIovec_eq (tp : TcpRcv) (skb : RcvSkb) (offset : ℕ) :
    ∃ iov, tp.skbCopyDatagramIovec skb offset =
      { tp with iov, iovLen := tp.iovLen + (skb.data.length - offset) } := by
  unfold skbCopyDatagramIovec
  split
  next => exact ⟨_, rfl⟩
  next hend =>
    refine ⟨tp.iov, ?_⟩
    rw [Nat.sub_eq_zero_of_le (Nat.le_of_not_lt hend), Nat.add_zero]

/-- The copy made at once for a segment that is next in order, by `tcp_copy_to_iovec` and by
`tcp_data_queue`. -/
def copyInOrder (tp : TcpRcv) (skb : RcvSkb) : TcpRcv :=
  { tp.skbCopyDatagramIovec skb 0 with
    copiedSeq := tp.copiedSeq + BitVec.ofNat 32 skb.data.length }

/-- A segment eaten at once takes part in nothing but the iovec, `copied_seq` and `rcv_nxt`. -/
theorem copyInOrder_eq (tp : TcpRcv) (skb : RcvSkb) :
    ∃ iov, tp.copyInOrder skb =
      { tp with
        iov
        iovLen := tp.iovLen + skb.data.length
        copiedSeq := tp.copiedSeq + BitVec.ofNat 32 skb.data.length } := by
  obtain ⟨iov, hcopy⟩ := tp.skbCopyDatagramIovec_eq skb 0
  exact ⟨iov, by rw [copyInOrder, hcopy]; rfl⟩

def tcpQueueRcv (tp : TcpRcv) (skb : RcvSkb) : TcpRcv :=
  { tp with receiveQueue := tp.receiveQueue ++ [skb] }.advance skb.endSeq

/-- `tcp_fin`, as far as the receive side sees it. -/
def tcpFin (tp : TcpRcv) : TcpRcv := { tp with outOfOrderQueue := [] }

/-- `tcp_ofo_queue`; the list is what is left of `out_of_order_queue`. -/
def tcpOfoQueue (tp : TcpRcv) : List RcvSkb → TcpRcv
  | [] => { tp with outOfOrderQueue := [] }
  | skb :: rest =>
      if after skb.seq tp.rcvNxt then { tp with outOfOrderQueue := skb :: rest }
      -- the packet was already received
      else if !after skb.endSeq tp.rcvNxt then tp.tcpOfoQueue rest
      -- the charge stays with the skb, so that moving it is queueing it
      else if skb.fin then (tp.tcpQueueRcv skb).tcpFin
      else (tp.tcpQueueRcv skb).tcpOfoQueue rest

end TcpRcv

/-- `tcp_collapse` of the two queues.  It copies the bytes of a range of skbs once into new skbs,
and leaves skbs with nothing new out. -/
structure Collapse where
  /-- `tcp_collapse` of `sk_receive_queue` from `copied_seq` to `rcv_nxt`. -/
  receive : SeqNum → SeqNum → List RcvSkb → List RcvSkb
  /-- `tcp_collapse_ofo_queue`. -/
  outOfOrder : List RcvSkb → List RcvSkb
  receive_le : ∀ start stop queue, queueBytes (receive start stop queue) ≤ queueBytes queue
  outOfOrder_le : ∀ queue, queueBytes (outOfOrder queue) ≤ queueBytes queue

/-- The collapse of queues with nothing to gain. -/
def Collapse.keep : Collapse :=
  ⟨fun _ _ queue => queue, id, fun _ _ _ => Nat.le_refl _, fun _ => Nat.le_refl _⟩

/-- What the memory accounting of the whole stack answers while one segment is admitted. -/
structure RcvMem where
  /-- The first `sk_rmem_schedule`. -/
  scheduled : Bool
  /-- The one after `tcp_prune_queue`. -/
  scheduledPruned : Bool
  /-- The one after `tcp_prune_ofo_queue`. -/
  scheduledLast : Bool
  /-- `sysctl_tcp_rmem[2]`, when `tcp_clamp_window` may raise `sk_rcvbuf` up to it. -/
  rmemMax : Option ℕ
deriving DecidableEq

/-- What is not about sequence numbers when a segment comes in. -/
structure SegmentChecks where
  /-- The flag word matches `pred_flags`, `ack_seq` is sent, the timestamp is in order. -/
  predicted : Bool
  /-- `tcp_checksum_complete_user` and `skb_copy_and_csum_datagram_iovec` find no error. -/
  csumOk : Bool
  /-- `truesize` is within `sk_forward_alloc`. -/
  forwardAlloc : Bool
  /-- ACK without RST and SYN, the PAWS check passes. -/
  acceptable : Bool
  /-- `tcp_ack` does not fail. -/
  ackOk : Bool
  mem : RcvMem
deriving DecidableEq

/-- A segment that passes every check and is not predicted. -/
def slowChecks : SegmentChecks where
  predicted := false
  csumOk := true
  forwardAlloc := true
  acceptable := true
  ackOk := true
  mem := ⟨true, true, true, none⟩

/-- The out-of-order skbs behind a new one, less those it covers as a whole. -/
def dropCovered (skb : RcvSkb) : List RcvSkb → List RcvSkb
  | [] => []
  | next :: rest =>
      if !after skb.endSeq next.seq then next :: rest
      else if before skb.endSeq next.endSeq then next :: rest
      else dropCovered skb rest

/-- Where `tcp_data_queue_ofo` puts a segment: behind the last skb that does not start after it. -/
def insertOfo (queue : List RcvSkb) (skb : RcvSkb) : List RcvSkb :=
  let later := (queue.reverse.takeWhile fun q => after q.seq skb.seq).reverse
  match queue.reverse.dropWhile fun q => after q.seq skb.seq with
  | [] => skb :: dropCovered skb later
  | skb1 :: earlier =>
      if before skb.seq skb1.endSeq then
        -- all the bits are present
        if !after skb.endSeq skb1.endSeq then queue
        else if after skb.seq skb1.seq then
          (skb1 :: earlier).reverse ++ skb :: dropCovered skb later
        else earlier.reverse ++ skb :: dropCovered skb (skb1 :: later)
      else (skb1 :: earlier).reverse ++ skb :: dropCovered skb later

namespace TcpRcv

variable (C : Collapse)

def tcpClampWindow (tp : TcpRcv) : Option ℕ → TcpRcv
  | none => tp
  | some rmemMax =>
      if tp.skRcvbuf < rmemMax then { tp with skRcvbuf := min tp.skRmemAlloc rmemMax } else tp

/-- `tcp_prune_queue`; `false` tells the caller to drop. -/
def tcpPruneQueue (tp : TcpRcv) (mem : RcvMem) : Bool × TcpRcv :=
  let clamped := if tp.skRcvbuf ≤ tp.skRmemAlloc then tp.tcpClampWindow mem.rmemMax else tp
  let collapsed :=
    { clamped with
      outOfOrderQueue := C.outOfOrder tp.outOfOrderQueue
      receiveQueue := C.receive tp.copiedSeq tp.rcvNxt tp.receiveQueue }
  if collapsed.skRmemAlloc ≤ collapsed.skRcvbuf then (true, collapsed)
  else
    let pruned := { collapsed with outOfOrderQueue := [] }
    if pruned.skRmemAlloc ≤ pruned.skRcvbuf then (true, pruned)
    else (false, { pruned with predFlags := false })

def tcpTryRmemSchedule (tp : TcpRcv) (mem : RcvMem) : Bool × TcpRcv :=
  if tp.skRmemAlloc ≤ tp.skRcvbuf && mem.scheduled then (true, tp)
  else
    match tp.tcpPruneQueue C mem with
    | (false, pruned) => (false, pruned)
    | (true, pruned) =>
        if mem.scheduledPruned then (true, pruned)
        else if pruned.outOfOrderQueue.isEmpty then (false, pruned)
        else (mem.scheduledLast, { pruned with outOfOrderQueue := [] })

def tcpDataQueueOfo (tp : TcpRcv) (skb : RcvSkb) (mem : RcvMem) : TcpRcv :=
  match tp.tcpTryRmemSchedule C mem with
  | (false, tp) => tp
  | (true, tp) =>
      let disabled := { tp with predFlags := false }
      match tp.outOfOrderQueue.getLast? with
      | none => { disabled with outOfOrderQueue := [skb] }
      | some last =>
          if skb.seq = last.endSeq then
            { disabled with outOfOrderQueue := tp.outOfOrderQueue ++ [skb] }
          else { disabled with outOfOrderQueue := insertOfo tp.outOfOrderQueue skb }

/-- The end of `tcp_data_queue` for a segment that has been taken. -/
def dataTaken (tp : TcpRcv) (skb : RcvSkb) : TcpRcv :=
  let finished := if skb.fin then tp.tcpFin else tp
  let filled :=
    if finished.outOfOrderQueue.isEmpty then finished
    else finished.tcpOfoQueue finished.outOfOrderQueue
  filled.tcpFastPathCheck

/-- `tcp_data_queue` from `queue_and_out` on. -/
def queueAndOut (tp : TcpRcv) (skb : RcvSkb) (mem : RcvMem) : TcpRcv :=
  match tp.tcpTryRmemSchedule C mem with
  | (false, tp) => tp
  | (true, tp) => (tp.tcpQueueRcv skb).dataTaken skb

def tcpDataQueue (tp : TcpRcv) (skb : RcvSkb) (mem : RcvMem) : TcpRcv :=
  if skb.seq = skb.endSeq then tp
  else if skb.seq = tp.rcvNxt then
    if tp.tcpReceiveWindow = 0 then tp
    else if tp.copiedSeq = tp.rcvNxt then
      -- eaten: nothing is charged for it
      ((tp.copyInOrder skb).advance skb.endSeq).dataTaken skb
    else tp.queueAndOut C skb mem
  else if !after skb.endSeq tp.rcvNxt then tp
  else if !before skb.seq (tp.rcvNxt + tp.tcpReceiveWindow) then tp
  else if before skb.seq tp.rcvNxt then
    if tp.tcpReceiveWindow = 0 then tp else tp.queueAndOut C skb mem
  else tp.tcpDataQueueOfo C skb mem

/-- `tcp_rcv_established` from `step5` on. -/
def step5 (tp : TcpRcv) (skb : RcvSkb) (checks : SegmentChecks) : TcpRcv :=
  if checks.ackOk then tp.tcpDataQueue C skb checks.mem else tp

def tcpRcvEstablished (tp : TcpRcv) (skb : RcvSkb) (checks : SegmentChecks) : TcpRcv :=
  if tp.predFlags && checks.predicted && !skb.fin && skb.seq == tp.rcvNxt then
    -- a bare acknowledgement
    if skb.data.isEmpty then tp
    else if tp.copiedSeq == tp.rcvNxt && skb.data.length ≤ tp.ucopyLen && checks.csumOk then
      let copied := (tp.copyInOrder skb).advance skb.endSeq
      { copied with ucopyLen := tp.ucopyLen - skb.data.length }
    else if !checks.csumOk then tp
    else if !checks.forwardAlloc then tp.step5 C skb checks
    else tp.tcpQueueRcv skb
  else if checks.csumOk && checks.acceptable && tp.tcpSequence skb.seq skb.endSeq then
    tp.step5 C skb checks
  else tp

end TcpRcv

/-! ## Reading -/

/-- The walk of `tcp_recvmsg` over the receive queue: the skb it stops at, between those it has
passed and those behind. -/
def findSkb (seq : SeqNum) : List RcvSkb → Option (List RcvSkb × RcvSkb × List RcvSkb)
  | [] => none
  | skb :: rest =>
      if before seq skb.seq then none
      else if (seq - skb.seq).toNat < skb.data.length || skb.fin then some ([], skb, rest)
      else (findSkb seq rest).map fun found => (skb :: found.1, found.2)

theorem findSkb_some {seq : SeqNum} {skb : RcvSkb} {rest : List RcvSkb} :
    ∀ {queue passed : List RcvSkb}, findSkb seq queue = some (passed, skb, rest) →
      queue = passed ++ skb :: rest := by
  intro queue
  induction queue with
  | nil => exact nofun
  | cons first queue ih =>
      intro passed hfind
      unfold findSkb at hfind
      split at hfind
      next => cases hfind
      next =>
        split at hfind
        next =>
          cases hfind
          rfl
        next =>
          obtain ⟨⟨passed', found⟩, hfind', heq⟩ := Option.map_eq_some_iff.1 hfind
          cases heq
          rw [ih hfind', List.cons_append]

namespace TcpRcv

/-- The loop of `tcp_recvmsg`.  Every turn that goes on has eaten an skb, so the length of the
queue bounds the turns. -/
def recvLoop : ℕ → TcpRcv → TcpRcv
  | 0, tp => tp
  | turns + 1, tp =>
      match findSkb tp.copiedSeq tp.receiveQueue with
      | none => tp
      | some (passed, skb, rest) =>
          let offset := (tp.copiedSeq - skb.seq).toNat
          let copied :=
            if offset < skb.data.length then
              { tp.skbCopyDatagramIovec skb offset with
                copiedSeq := tp.copiedSeq + BitVec.ofNat 32 (skb.data.length - offset) }
            else tp
          let eaten := { copied with receiveQueue := passed ++ rest }
          -- found_fin_ok
          if skb.fin then { eaten with copiedSeq := eaten.copiedSeq + 1 }
          else recvLoop turns eaten

/-- Reading changes the iovec and `copied_seq`, and takes skbs out of the receive queue. -/
theorem recvLoop_eq : ∀ (turns : ℕ) (tp : TcpRcv), ∃ iov iovLen copiedSeq receiveQueue,
    recvLoop turns tp = { tp with iov, iovLen, copiedSeq, receiveQueue } ∧
      receiveQueue.Sublist tp.receiveQueue := by
  intro turns
  induction turns with
  | zero => exact fun tp => ⟨_, _, _, _, rfl, .refl _⟩
  | succ turns ih =>
      intro tp
      unfold recvLoop
      split
      next => exact ⟨_, _, _, _, rfl, .refl _⟩
      next passed skb rest hfind =>
        have hless : (passed ++ rest).Sublist tp.receiveQueue := by
          rw [findSkb_some hfind]
          exact (List.Sublist.refl passed).append (List.sublist_cons_self skb rest)
        have hcopied : ∃ iov iovLen copiedSeq,
            (if (tp.copiedSeq - skb.seq).toNat < skb.data.length then
              { tp.skbCopyDatagramIovec skb (tp.copiedSeq - skb.seq).toNat with
                copiedSeq := tp.copiedSeq +
                  BitVec.ofNat 32 (skb.data.length - (tp.copiedSeq - skb.seq).toNat) }
              else tp) = { tp with iov, iovLen, copiedSeq } := by
          split
          next =>
            obtain ⟨iov, hcopy⟩ := tp.skbCopyDatagramIovec_eq skb (tp.copiedSeq - skb.seq).toNat
            exact ⟨iov, _, _, by rw [hcopy]⟩
          next => exact ⟨_, _, _, rfl⟩
        obtain ⟨iov, iovLen, copiedSeq, hcopy⟩ := hcopied
        dsimp only
        rw [hcopy]
        split
        next => exact ⟨_, _, _, _, rfl, hless⟩
        next =>
          obtain ⟨iov', iovLen', copiedSeq', receiveQueue, heq, hsub⟩ :=
            ih { tp with iov, iovLen, copiedSeq, receiveQueue := passed ++ rest }
          exact ⟨iov', iovLen', copiedSeq', receiveQueue, heq, hsub.trans hless⟩

/-- `tcp_recvmsg`: the chain handed to the caller, its length and the socket afterwards. -/
def tcpRecvmsg (tp : TcpRcv) : List (List UInt8) × ℕ × TcpRcv :=
  let read := if tp.receiveQueue.isEmpty then tp else recvLoop tp.receiveQueue.length tp
  (read.iov, read.iovLen, { read with iov := [], iovLen := 0, ucopyLen := read.skRcvbuf })

/-- `tcp_select_window`; `newWin` is what `__tcp_select_window` computes. -/
def tcpSelectWindow (tp : TcpRcv) (rcvWscale : ℕ) (newWin : BitVec 32) : TcpRcv :=
  let curWin := tp.tcpReceiveWindow
  let unit := 2 ^ rcvWscale
  let chosen :=
    if newWin < curWin then BitVec.ofNat 32 ((curWin.toNat + unit - 1) / unit * unit) else newWin
  let scaled := min chosen.toNat (65535 * unit) / unit
  { tp with
    rcvWnd := chosen
    rcvWup := tp.rcvNxt
    predFlags := tp.predFlags && scaled != 0 }

end TcpRcv

/-! ## Runs -/

/-- A connection with its `rx_ring`; `returned` records every chain that `tcp_recvmsg` gave out. -/
structure RcvState where
  tp : TcpRcv
  returned : List (List (List UInt8))
  /-- How many chains wait in `rx_ring`. -/
  rxRing : ℕ
deriving DecidableEq

inductive RcvStep
  | /-- A segment reaches `tcp_rcv_established`. -/
    segment (skb : RcvSkb) (checks : SegmentChecks)
  | /-- Somebody calls `tcp_recvmsg`. -/
    recvmsg
  | /-- The service runs `user_data_available_cbk`. -/
    dataAvailable
  | /-- The client takes a chain from `rx_ring`. -/
    clientRead
  | /-- A segment is sent, with a newly selected window. -/
    sendAck (rcvWscale : ℕ) (newWin : BitVec 32)
  | /-- `tcp_ack_update_window` sees a new window of the peer. -/
    peerWindow
  | /-- `tcp_rcv_space_adjust` raises `sk_rcvbuf`. -/
    growRcvbuf (skRcvbuf : ℕ)
deriving DecidableEq

/-- `tcp_recvmsg` called on the connection. -/
def RcvState.recvmsg (s : RcvState) : RcvState :=
  { s with tp := s.tp.tcpRecvmsg.2.2, returned := s.returned ++ [s.tp.tcpRecvmsg.1] }

/-- The loop of `user_data_available_cbk`; the number is `ring_free`. -/
def userDataAvailableCbk : ℕ → RcvState → RcvState
  | 0, s => s
  | ringFree + 1, s =>
      if s.tp.tcpRecvmsg.2.1 = 0 then s.recvmsg
      else userDataAvailableCbk ringFree { s.recvmsg with rxRing := s.rxRing + 1 }

def rcvStep (C : Collapse) (s : RcvState) : RcvStep → Option RcvState
  | .segment skb checks => some { s with tp := s.tp.tcpRcvEstablished C skb checks }
  | .recvmsg => some s.recvmsg
  | .dataAvailable => some (userDataAvailableCbk (dataRingCapacity - s.rxRing) s)
  | .clientRead => if 0 < s.rxRing then some { s with rxRing := s.rxRing - 1 } else none
  | .sendAck rcvWscale newWin => some { s with tp := s.tp.tcpSelectWindow rcvWscale newWin }
  | .peerWindow => some { s with tp := { s.tp with predFlags := false }.tcpFastPathCheck }
  | .growRcvbuf skRcvbuf =>
      if s.tp.skRcvbuf < skRcvbuf then some { s with tp := { s.tp with skRcvbuf } } else none

def establishedState (isn : SeqNum) (rcvWnd : BitVec 32) (predFlags : Bool) (skRcvbuf : ℕ) :
    RcvState where
  tp :=
    { rcvNxt := isn, copiedSeq := isn, rcvWup := isn, rcvWnd, predFlags, ucopyLen := 0, iov := [],
      iovLen := 0, receiveQueue := [], outOfOrderQueue := [], skRcvbuf, received := 0 }
  returned := []
  rxRing := 0

/-- The runs of one connection.  Any segment may arrive: that they are pieces of one stream is
left to the results that need it. -/
def rcvMachine (C : Collapse) (isn : SeqNum) (rcvWnd : BitVec 32) (predFlags : Bool)
    (skRcvbuf : ℕ) : Machine RcvState RcvStep where
  init := establishedState isn rcvWnd predFlags skRcvbuf
  step := rcvStep C

end IpAugenblick
