/-
# The byte credit of a stream connection

`tx_space` is set to `sk_stream_wspace` when the service processes OPEN_SOCKET or
SET_SOCKET_RING, taken down by the length of every send that found room in `tx_ring`, and
credited with the data length of every fragment's buffer when `sk_wmem_free_skb` drops a
segment.  In between the buffers are in `tx_ring` or behind the fragments of the write queue,
where `tcp_fragment` can put one buffer in two segments and `tcp_trim_head` can take it out of
one.

The client may send as soon as it has its descriptor, so its sends run against the service's
processing of the command that opens the connection.
-/

import IpAugenblick.Client.Receive
import IpAugenblick.Lib.Holdings
import IpAugenblick.Stack.Frames
import IpAugenblick.Stack.WriteQueue

namespace IpAugenblick

open Lib

inductive DebitPc
  | /-- Between two calls. -/
    idle
  | /-- Behind a successful enqueue of `length` bytes, before `tx_space` is taken down. -/
    debit (length : ℕ)
  deriving DecidableEq

/-- The bytes that were enqueued and not taken from `tx_space` yet. -/
def DebitPc.undebited : DebitPc → ℕ
  | .idle => 0
  | .debit length => length

namespace ReshapeState

/-- The packet buffers behind the fragments of the write queue. -/
def pages (s : ReshapeState) : List ℕ := s.queue.flatMap Skb.pages

/-- The buffers that the stack took for headers and copies. -/
def heads (s : ReshapeState) : List ℕ := s.queue.filterMap Skb.headerMbuf ++ s.spare

/-- A cut, a trim or a transmission in any state. -/
def reshape (s : ReshapeState) (a : ReshapeStep) : Option ReshapeState :=
  (reshapeMachine s.mem (skStreamAllocSkb 0) s.spare).step s a

end ReshapeState

/-- The transmit side of a stream connection with its credit. -/
structure CreditState where
  stack : ReshapeState
  txRing : List ℕ
  writeSeq : ℕ
  txSpace : BitVec 32
  /-- What `sk_stream_wspace` was when `tx_space` was set. -/
  initial : Option (BitVec 32)
  sender : DebitPc

inductive CreditStep
  | /-- `ipaugenblick_send`, up to the enqueue. -/
    send (mbuf length : ℕ)
  | /-- `ipaugenblick_send_bulk`, up to the enqueue. -/
    sendBulk (bufs : List (ℕ × ℕ))
  | /-- `rte_atomic32_sub` of `tx_space`. -/
    debit
  | /-- The service processes OPEN_SOCKET or SET_SOCKET_RING. -/
    openSocket (wspace : BitVec 32)
  | /-- A call of `do_tcp_sendpages`. -/
    sendpages (c : SendpagesCall)
  | /-- `tcp_fragment`, `tcp_trim_head` or a transmission. -/
    reshape (a : ReshapeStep)
  | /-- `sk_wmem_free_skb` of the `i`-th segment. -/
    freeSkb (i : ℕ)
  | /-- The stack gets a buffer from the pool. -/
    alloc (mbuf : ℕ)
  | /-- A buffer that the connection does not hold changes. -/
    other (mbuf : ℕ) (contents : Mbuf)

/-- `user_transmitted_callback` with its credit. -/
def creditTransmitted (acc : MbufMem × BitVec 32) (f : Frag) : MbufMem × BitVec 32 :=
  (userTransmittedCallback acc.1 f, acc.2 + BitVec.ofNat 32 (acc.1.mbuf f.page).dataLen)

namespace CreditState

/-- The buffers that the client enqueued and the stack has not released. -/
def held (s : CreditState) : List ℕ := s.txRing ++ s.stack.pages

def inUse (s : CreditState) : List ℕ := s.held ++ s.stack.heads

/-- The bytes in the buffers that the stack has not released, each buffer counted once. -/
def outstanding (s : CreditState) : ℕ :=
  weight (fun p => (s.stack.mem.mbuf p).dataLen) s.held

/-- The client owns the buffers it sends, and they are distinct. -/
def Owns (s : CreditState) (mbufs : List ℕ) : Prop :=
  mbufs.Nodup ∧ ∀ p ∈ mbufs, p < s.stack.mem.size ∧ p ∉ s.inUse

instance (s : CreditState) (mbufs : List ℕ) : Decidable (s.Owns mbufs) :=
  inferInstanceAs (Decidable (_ ∧ _))

/-- `ipaugenblick_enqueue_tx_buf` and `ipaugenblick_enqueue_tx_bufs_bulk` of buffers whose data
lengths are set. -/
def enqueueTxBufs (s : CreditState) (mem : MbufMem) (bufs : List (ℕ × ℕ)) : CreditState :=
  if s.txRing.length + bufs.length ≤ dataRingCapacity then
    { s with
      stack := { s.stack with mem }
      txRing := s.txRing ++ bufs.map Prod.fst
      sender := .debit (bufs.map Prod.snd).sum }
  else { s with stack := { s.stack with mem } }

/-- `do_tcp_sendpages`. -/
def sendpages (s : CreditState) (c : SendpagesCall) : CreditState :=
  if StreamState.Admitted c then
    let (mem, _, first, txRing) := userGetBuffer s.stack.mem c.sizeGoal s.txRing
    match first with
    | none => s
    | some _ =>
        let sent := doTcpSendpages mem c.headers s.writeSeq first
        { s with
          stack := { s.stack with mem := sent.mem, queue := s.stack.queue ++ sent.queue }
          txRing
          writeSeq := sent.writeSeq }
  else s

/-- `sk_wmem_free_skb` of the `i`-th segment `skb`. -/
def wmemFreeSkb (s : CreditState) (i : ℕ) (skb : Skb) : CreditState :=
  let credited := skb.shinfo.frags.foldl creditTransmitted (s.stack.mem, s.txSpace)
  { s with
    stack := { s.stack with
      mem := (skbReleaseData credited.1 skb).1
      queue := s.stack.queue.eraseIdx i }
    txSpace := credited.2 }

end CreditState

/-- A connection whose descriptor the client has just got, with any contents of the buffers and
any value that an earlier connection left in `tx_space`. -/
def creditMachine (mem : MbufMem) (writeSeq : ℕ) (txSpace : BitVec 32) :
    Machine CreditState CreditStep where
  init :=
    { stack := { mem, queue := [], spare := [] }
      txRing := [], writeSeq := seqAdd writeSeq 0, txSpace, initial := none, sender := .idle }
  step s
    | .send mbuf length =>
        if s.sender = .idle ∧ s.Owns [mbuf] then
          some (s.enqueueTxBufs ((s.stack.mem.setDataLen mbuf length).setNext mbuf none)
            [(mbuf, length)])
        else none
    | .sendBulk bufs =>
        if s.sender = .idle ∧ s.Owns (bufs.map Prod.fst) then
          some (s.enqueueTxBufs (bufs.foldl (fun M b => M.setDataLen b.1 b.2) s.stack.mem) bufs)
        else none
    | .debit =>
        match s.sender with
        | .debit length =>
            some { s with sender := .idle, txSpace := s.txSpace - BitVec.ofNat 32 length }
        | .idle => none
    | .openSocket wspace =>
        if s.initial = none then some { s with txSpace := wspace, initial := some wspace }
        else none
    | .sendpages c =>
        -- without the socket nobody looks at `tx_ring`
        if s.initial ≠ none ∧ ∀ h ∈ c.headers, h ∉ s.inUse then some (s.sendpages c) else none
    | .reshape a => (s.stack.reshape a).map fun stack => { s with stack }
    | .freeSkb i =>
        match s.stack.queue[i]? with
        | some skb => some (s.wmemFreeSkb i skb)
        | none => none
    | .alloc mbuf =>
        if mbuf ∉ s.inUse then
          some { s with stack := { s.stack with spare := s.stack.spare ++ [mbuf] } }
        else none
    | .other mbuf contents =>
        if mbuf ∉ s.held then
          some { s with stack := { s.stack with mem := s.stack.mem.modify mbuf fun _ => contents } }
        else none

/-- The account is right: `tx_space` is what it was set to, less the bytes that the client
enqueued and the stack has not released, except those that the client is about to subtract. -/
def CreditState.Accounted (s : CreditState) : Prop :=
  ∀ wspace, s.initial = some wspace →
    s.txSpace =
      wspace - BitVec.ofNat 32 s.outstanding + BitVec.ofNat 32 s.sender.undebited

/-- The fragments that the loop of `__pskb_trim_head` drops. -/
def droppedFrags : ℕ → List Frag → List Frag
  | _, [] => []
  | eat, f :: fs => if f.size ≤ eat then f :: droppedFrags (eat - f.size) fs else droppedFrags 0 fs

/-- Those that `tcp_trim_head` drops. -/
def trimmedFrags (skb : Skb) (len : ℕ) : List Frag :=
  if min len skb.skbHeadlen ≠ 0 ∧ len - min len skb.skbHeadlen = 0 then []
  else droppedFrags (len - min len skb.skbHeadlen) skb.shinfo.frags

/-- The guard of the runs in which the account is kept.  The length of a send fits `data_len`
and a bulk send is given single buffers; nothing that was subtracted already is outstanding when
`tx_space` is set; every allocation of `do_tcp_sendpages` succeeds; a trim drops no buffer that
no other segment holds; and a segment that is freed shares no buffer. -/
def creditOk (s : CreditState) : CreditStep → Prop
  | .send _ length => length < 65536
  | .sendBulk bufs => ∀ b ∈ bufs, b.2 < 65536 ∧ s.stack.mem.next b.1 = none
  | .openSocket _ => s.outstanding = s.sender.undebited
  | .sendpages c =>
      StreamState.Admitted c →
        (takenBufs s.stack.mem c.sizeGoal s.txRing).length ≤ maxSkbFrags * c.headers.length
  | .reshape (.trimHead i len) =>
      ∀ skb, s.stack.queue[i]? = some skb → ∀ f ∈ trimmedFrags skb len,
        (s.stack.mem.mbuf f.page).dataLen = 0 ∨
          f.page ∈ (s.stack.queue.eraseIdx i).flatMap Skb.pages
  | .freeSkb i =>
      ∀ skb, s.stack.queue[i]? = some skb → ∀ p ∈ skb.pages,
        (s.stack.mem.mbuf p).dataLen = 0 ∨ s.held.count p = 1
  | _ => True

end IpAugenblick
