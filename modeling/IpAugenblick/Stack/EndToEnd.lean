/-
# A stream from one client to another

One client enqueues buffers on `tx_ring`, its service cuts them into the write queue, and pieces of
the write queue travel: whatever piece TCP sends, and as often as it sends it.  The driver links
whole buffers, so the runs looked at are those in which a piece starts and ends between two buffers;
the card may cut its frame anywhere.  The network loses, repeats and reorders the segments.  At the
other end they are reassembled and read.

Nobody writes to a buffer between its send and its last transmission, and the frames are long
enough to need no padding.

The stream is not known before the end of the run.  A run is therefore looked at from its end: the
bytes that were appended by then are the stream that every segment before was a piece of.
-/

import IpAugenblick.Stack.Reassembly
import IpAugenblick.Stack.WriteQueue
import Mathlib.Data.List.Infix

namespace IpAugenblick

open Lib Lib.Serial

/-- Both ends of a connection, and the segments on their way. -/
structure ConnState where
  tx : StreamState
  net : List RcvSkb
  rx : RcvState

inductive ConnStep
  | /-- The sending client or its service moves. -/
    sender (a : StreamStep)
  | /-- TCP sends `len` bytes of its write queue from `off` on, for the first time or again; the
    card puts `size` bytes of the frame from `start` on into a segment, or all of them. -/
    transmit (off len start size : ℕ)
  | /-- The `i`-th segment that was ever sent arrives. -/
    deliver (i : ℕ) (checks : SegmentChecks)
  | /-- The receiving client or its service moves, or an acknowledgement changes the window. -/
    receiver (a : RcvStep)

/-- The stream that starts with these bytes, numbered from `writeSeq` on. -/
def writtenStream (writeSeq : ℕ) (bytes : List UInt8) : PeerStream where
  isn := BitVec.ofNat 32 writeSeq
  byte n := bytes.getD n 0
  fin := none

/-- What `dpdk_xmit_frame` links behind the headers of `len` bytes of the write queue from `off` on:
the whole data of every buffer that has one of these bytes, as each is the page of a fragment. -/
def xmitData : List (List UInt8) → ℕ → ℕ → List UInt8
  | [], _, _ => []
  | buf :: bufs, off, len =>
      if len = 0 then []
      else if buf.length ≤ off then xmitData bufs (off - buf.length) len
      else buf ++ xmitData bufs 0 (len - (buf.length - off))

/-- The segment with `size` bytes of such a frame from `start` on, as the other end sees it: its
sequence number is that of the byte it should start with, and what the frame has behind the `len`
bytes that the headers speak of is behind the IP payload of the last segment. -/
def sentSegment (writeSeq : ℕ) (bufs : List (List UInt8)) (off len start size : ℕ) : RcvSkb where
  seq := ofPos (BitVec.ofNat 32 writeSeq) (off + start)
  data := ((xmitData bufs off len).drop start).take size
  fin := false
  trailer := if start + size < len then [] else (xmitData bufs off len).drop len
  truesize := (xmitData bufs off len).length + 512
  off := off + start
  data_le_truesize := by
    rw [List.length_take, List.length_drop]
    omega

def RcvStep.arrives : RcvStep → Bool
  | .segment _ _ => true
  | _ => false

/-- The runs of a connection that starts with `write_seq` and `rcv_nxt` alike.  A segment that was
sent stays in `net`, so that it can arrive late, more than once or never. -/
def connMachine (C : Collapse) (mem : MbufMem) (writeSeq : ℕ) (rcvWnd : BitVec 32)
    (predFlags : Bool) (skRcvbuf : ℕ) : Machine ConnState ConnStep where
  init :=
    { tx := (streamMachine mem writeSeq).init
      net := []
      rx := establishedState (BitVec.ofNat 32 writeSeq) rcvWnd predFlags skRcvbuf }
  step s
    | .sender a => ((streamMachine mem writeSeq).step s.tx a).map fun tx => { s with tx }
    | .transmit off len start size =>
        if off + len ≤ s.tx.appended.length ∧ start + size ≤ len then
          some { s with
            net := s.net ++ [sentSegment writeSeq s.tx.enqueued off len start size] }
        else none
    | .deliver i checks =>
        s.net[i]?.bind fun skb => (rcvStep C s.rx (.segment skb checks)).map fun rx => { s with rx }
    | .receiver a =>
        if a.arrives then none else (rcvStep C s.rx a).map fun rx => { s with rx }

/-- The guard of the runs in which the allocations of the sender succeed, what TCP sends starts and
ends between two buffers, the receiver has memory, and a segment arrives less than half the sequence
space away from `rcv_nxt`.  Without the second the wire carries other bytes than the write queue
(`frame_carries_stream_iff`), and no receiver can tell. -/
def connOk (s : ConnState) : ConnStep → Prop
  | .sender a => streamOk s.tx a
  | .transmit off len _ _ =>
      Boundary List.length s.tx.enqueued off ∧ Boundary List.length s.tx.enqueued (off + len)
  | .deliver i checks =>
      s.rx.tp.skRmemAlloc ≤ s.rx.tp.skRcvbuf ∧ s.rx.tp.skRcvbuf < 2 ^ 31 ∧
        checks.mem.scheduled = true ∧
          ∀ skb, s.net[i]? = some skb → nearNext s.rx (.segment skb checks)
  | .receiver _ => True

/-- Between two buffers at both ends, whole buffers are the piece itself. -/
theorem xmitData_eq : ∀ {bufs : List (List UInt8)} {off len : ℕ},
    Boundary List.length bufs off → Boundary List.length bufs (off + len) →
      xmitData bufs off len = (bufs.flatten.drop off).take len := by
  intro bufs
  induction bufs with
  | nil =>
      intro off len _ _
      rw [xmitData, List.flatten_nil, List.drop_nil, List.take_nil]
  | cons buf bufs ih =>
      intro off len hoff hend
      rw [xmitData, List.flatten_cons]
      by_cases hlen : len = 0
      · rw [if_pos hlen, hlen, List.take_zero]
      · rw [if_neg hlen]
        obtain ⟨stop, hstop, hstopEq⟩ := (boundary_cons.mp hend).resolve_left (by omega)
        by_cases hbehind : buf.length ≤ off
        · have hoff' : Boundary List.length bufs (off - buf.length) := by
            rcases boundary_cons.mp hoff with hzero | ⟨m, hm, heq⟩
            · rw [hzero, Nat.zero_sub]
              exact boundary_zero
            · rwa [heq, Nat.add_sub_cancel_left]
          have hend' : Boundary List.length bufs (off - buf.length + len) := by
            rwa [show off - buf.length + len = stop by omega]
          rw [if_pos hbehind, ih hoff' hend', List.drop_append, List.drop_of_length_le hbehind,
            List.nil_append]
        · have hzero : off = 0 := by
            rcases boundary_cons.mp hoff with hzero | ⟨m, -, heq⟩
            · exact hzero
            · omega
          subst hzero
          have hend' : Boundary List.length bufs (0 + (len - buf.length)) := by
            rwa [show 0 + (len - buf.length) = stop by omega]
          rw [if_neg hbehind, Nat.sub_zero, ih boundary_zero hend', List.drop_zero, List.drop_zero,
            List.take_append, List.take_of_length_le (show buf.length ≤ len by omega)]

namespace PeerStream

def Begins (peer : PeerStream) (bytes : List UInt8) : Prop :=
  bytes = peer.bytes 0 bytes.length

variable {peer : PeerStream} {xs ys : List UInt8}

theorem getElem?_bytes (peer : PeerStream) (start len i : ℕ) :
    (peer.bytes start len)[i]? = if i < len then some (peer.byte (start + i)) else none := by
  rw [bytes, List.getElem?_map]
  split
  next hlt => rw [List.getElem?_range' hlt, Option.map_some, Nat.one_mul]
  next hge =>
    rw [List.getElem?_eq_none (by rw [List.length_range']; exact Nat.le_of_not_lt hge)]
    rfl

theorem begins_iff : peer.Begins xs ↔ ∀ i < xs.length, xs[i]? = some (peer.byte i) := by
  constructor
  · intro h i hi
    rw [h, getElem?_bytes, if_pos hi, Nat.zero_add]
  · intro h
    apply List.ext_getElem?
    intro i
    rw [getElem?_bytes, Nat.zero_add]
    split
    · exact h i ‹_›
    · exact List.getElem?_eq_none (Nat.le_of_not_lt ‹_›)

theorem Begins.of_prefix (h : peer.Begins ys) (hle : xs <+: ys) : peer.Begins xs := by
  obtain ⟨rest, rfl⟩ := hle
  rw [begins_iff] at h ⊢
  intro i hi
  rw [← List.getElem?_append_left hi]
  exact h i (by rw [List.length_append]; omega)

theorem take_bytes (peer : PeerStream) (start len k : ℕ) :
    (peer.bytes start len).take k = peer.bytes start (min k len) := by
  apply List.ext_getElem?
  intro i
  rw [List.getElem?_take, getElem?_bytes, getElem?_bytes]
  by_cases hk : i < k
  · simp only [hk, Nat.lt_min, true_and, if_true]
  · rw [if_neg hk, if_neg fun hlt => hk (Nat.lt_min.mp hlt).1]

/-- Bytes of the beginning are bytes of the stream. -/
theorem Begins.slice (h : peer.Begins xs) {off len : ℕ} (hin : off + len ≤ xs.length) :
    (xs.drop off).take len = peer.bytes off len := by
  have hslice := congrArg (fun ys => (ys.drop off).take len) h
  rwa [drop_bytes, take_bytes, Nat.zero_add, Nat.min_eq_left (by omega)] at hslice

/-- A segment of whole buffers that were appended is a piece of the stream. -/
theorem Begins.carries_sent {writeSeq : ℕ} {pre rest : List (List UInt8)}
    (h : peer.Begins pre.flatten) (hisn : peer.isn = BitVec.ofNat 32 writeSeq)
    (hfin : peer.fin = none) {off len start size : ℕ} (hin : off + len ≤ pre.flatten.length)
    (hpart : start + size ≤ len) (hoff : Boundary List.length (pre ++ rest) off)
    (hend : Boundary List.length (pre ++ rest) (off + len)) :
    peer.Carries (sentSegment writeSeq (pre ++ rest) off len start size) := by
  have hframe : xmitData (pre ++ rest) off len = peer.bytes off len := by
    rw [xmitData_eq hoff hend, List.flatten_append, List.drop_append_of_le_length (by omega),
      List.take_append_of_le_length (by rw [List.length_drop]; omega), h.slice hin]
  have hdata : (sentSegment writeSeq (pre ++ rest) off len start size).data =
      peer.bytes (off + start) size := by
    show ((xmitData (pre ++ rest) off len).drop start).take size = _
    rw [hframe, drop_bytes, take_bytes, Nat.min_eq_left (by omega)]
  constructor
  · show ofPos (BitVec.ofNat 32 writeSeq) (off + start) = ofPos peer.isn (off + start)
    rw [hisn]
  · rw [hdata, length_bytes]
    rfl
  · intro last hlast
    rw [hfin] at hlast
    cases hlast
  · exact nofun
  · show (if start + size < len then [] else (xmitData (pre ++ rest) off len).drop len) = []
    rw [hframe, drop_bytes, Nat.sub_self]
    exact ite_self []

theorem begins_writtenStream (writeSeq : ℕ) (bytes more : List UInt8) :
    (writtenStream writeSeq (bytes ++ more)).Begins bytes := by
  rw [begins_iff]
  intro i hi
  show bytes[i]? = some ((bytes ++ more).getD i 0)
  rw [List.getD_eq_getElem?_getD, List.getElem?_append_left hi, List.getElem?_eq_getElem hi]
  rfl

end PeerStream

namespace ConnState

variable {C : Collapse} {mem : MbufMem} {writeSeq : ℕ} {rcvWnd : BitVec 32} {predFlags : Bool}
  {skRcvbuf : ℕ} {s t : ConnState}

/-- Seen from a stream that begins with what was appended: the segments on their way are its pieces
and the receiver reassembles it. -/
structure Follows (writeSeq : ℕ) (peer : PeerStream) (s : ConnState) : Prop where
  sender : s.tx.Inv writeSeq
  carried : ∀ skb ∈ s.net, peer.Carries skb
  receiver : ReassemblyInv peer s.rx

/-- A connection that has just been established has read nothing. -/
theorem reassemblyInv_established {peer : PeerStream} :
    ReassemblyInv peer (establishedState peer.isn rcvWnd predFlags skRcvbuf) := by
  refine ⟨0, ⟨ofPos_zero.symm, ofPos_zero.symm, ?_, .inl rfl⟩, PeerStream.Sorted.nil _,
    fun _ => rfl⟩
  rw [PeerStream.clip_of_le fun _ _ => Nat.zero_le _]
  rfl

theorem carriedOk_of_not_arrives {peer : PeerStream} {rx : RcvState} {a : RcvStep}
    (h : ¬a.arrives = true) : carriedOk peer rx a := by
  cases a with
  | segment skb checks => exact absurd rfl h
  | _ => trivial

theorem nearNext_of_not_arrives {rx : RcvState} {a : RcvStep} (h : ¬a.arrives = true) :
    nearNext rx a := by
  cases a with
  | segment skb checks => exact absurd rfl h
  | _ => trivial

/-- The write queue only grows. -/
theorem appended_prefix {a : StreamStep} {t : StreamState} {s : StreamState} (h : s.Inv writeSeq)
    (hok : streamOk s a) (hstep : (streamMachine mem writeSeq).step s a = some t) :
    s.appended <+: t.appended := by
  cases a with
  | send mbuf length | sendBulk mbuf length | other mbuf contents =>
      simp only [streamMachine, Option.ite_none_right_eq_some, Option.some.injEq] at hstep
      obtain ⟨-, rfl⟩ := hstep
      exact List.prefix_rfl
  | sendpages c =>
      obtain rfl := Option.some.inj hstep
      obtain ⟨hsends, -⟩ := h.tcpSendpages hok
      exact ⟨_, hsends.appended.symm⟩

/-- **Step lemma.**  Whoever knows the stream up to what is appended after the step. -/
theorem Follows.step {peer : PeerStream} (hisn : peer.isn = BitVec.ofNat 32 writeSeq)
    (hfin : peer.fin = none) (h : s.Follows writeSeq peer) (hbegins : peer.Begins s.tx.appended)
    {a : ConnStep} (hok : connOk s a)
    (hstep : (connMachine C mem writeSeq rcvWnd predFlags skRcvbuf).step s a = some t) :
    t.Follows writeSeq peer := by
  cases a with
  | sender a =>
      obtain ⟨tx, htx, rfl⟩ := Option.map_eq_some_iff.mp hstep
      exact ⟨h.sender.step hok htx, h.carried, h.receiver⟩
  | transmit off len start size =>
      simp only [connMachine, Option.ite_none_right_eq_some, Option.some.injEq] at hstep
      obtain ⟨⟨hin, hpart⟩, rfl⟩ := hstep
      refine ⟨h.sender, fun skb hskb => ?_, h.receiver⟩
      rcases List.mem_append.mp hskb with hold | hnew
      · exact h.carried skb hold
      · obtain ⟨pre, henqueued, happended⟩ := h.sender.bytes
        rw [List.mem_singleton.mp hnew, henqueued]
        rw [connOk, henqueued] at hok
        rw [happended] at hbegins hin
        exact hbegins.carries_sent hisn hfin hin hpart hok.1 hok.2
  | deliver i checks =>
      obtain ⟨skb, hskb, hdelivered⟩ := Option.bind_eq_some_iff.mp hstep
      obtain ⟨rx, hrx, rfl⟩ := Option.map_eq_some_iff.mp hdelivered
      obtain ⟨hroom, hint, hmem, hnear⟩ := hok
      have hcarries : peer.Carries skb := h.carried skb (List.mem_of_getElem? hskb)
      have hsegment : carriedOk peer s.rx (.segment skb checks) := ⟨hcarries, hroom, hint, hmem⟩
      exact ⟨h.sender, h.carried, h.receiver.step hsegment (hnear skb hskb) hrx⟩
  | receiver a =>
      simp only [connMachine, Option.ite_none_left_eq_some] at hstep
      obtain ⟨harrives, hmoved⟩ := hstep
      obtain ⟨rx, hrx, rfl⟩ := Option.map_eq_some_iff.mp hmoved
      exact ⟨h.sender, h.carried, h.receiver.step (carriedOk_of_not_arrives harrives)
        (nearNext_of_not_arrives harrives) hrx⟩

/-- What was appended before a step is appended after it. -/
theorem Follows.appended_prefix {peer : PeerStream} (h : s.Follows writeSeq peer) {a : ConnStep}
    (hok : connOk s a)
    (hstep : (connMachine C mem writeSeq rcvWnd predFlags skRcvbuf).step s a = some t) :
    s.tx.appended <+: t.tx.appended := by
  cases a with
  | sender a =>
      obtain ⟨tx, htx, rfl⟩ := Option.map_eq_some_iff.mp hstep
      exact ConnState.appended_prefix h.sender hok htx
  | transmit off len start size =>
      simp only [connMachine, Option.ite_none_right_eq_some, Option.some.injEq] at hstep
      obtain ⟨-, rfl⟩ := hstep
      exact List.prefix_rfl
  | deliver i checks =>
      obtain ⟨skb, -, hrx⟩ := Option.bind_eq_some_iff.mp hstep
      obtain ⟨rx, -, rfl⟩ := Option.map_eq_some_iff.mp hrx
      exact List.prefix_rfl
  | receiver a =>
      simp only [connMachine, Option.ite_none_left_eq_some] at hstep
      obtain ⟨-, hrx⟩ := hstep
      obtain ⟨rx, -, rfl⟩ := Option.map_eq_some_iff.mp hrx
      exact List.prefix_rfl

/-- A run seen from its end.  The induction is on the run, the stream is any that begins with what
is appended at its end. -/
theorem follows_of_reachable
    (hreach : (connMachine C mem writeSeq rcvWnd predFlags skRcvbuf).ReachableWhere connOk s) :
    ∀ peer : PeerStream, peer.isn = BitVec.ofNat 32 writeSeq → peer.fin = none →
      peer.Begins s.tx.appended → s.Follows writeSeq peer := by
  induction hreach with
  | init =>
      intro peer hisn hfin _
      constructor
      · exact { bytes := ⟨[], rfl, rfl⟩, seq := rfl, returned := nofun, nodup := List.nodup_nil
                inRange := nofun, single := nofun }
      · exact nofun
      · show ReassemblyInv peer (establishedState (BitVec.ofNat 32 writeSeq) _ _ _)
        rw [← hisn]
        exact reassemblyInv_established
  | @step s t a _ hok hstep ih =>
      intro peer hisn hfin hbegins
      have hown : s.Follows writeSeq (writtenStream writeSeq s.tx.appended) := by
        apply ih _ rfl rfl
        have hself := PeerStream.begins_writtenStream writeSeq s.tx.appended []
        rwa [List.append_nil] at hself
      have hbefore : peer.Begins s.tx.appended :=
        hbegins.of_prefix (hown.appended_prefix hok hstep)
      exact (ih peer hisn hfin hbefore).step hisn hfin hbefore hok hstep

/-- What the receiving client has read or can read. -/
def got (s : ConnState) : List UInt8 := s.rx.read ++ s.rx.tp.iov.flatten

/-- What waits in `tx_ring`. -/
def waiting (s : ConnState) : List UInt8 := s.tx.txRing.flatMap fun p => (s.tx.mem.mbuf p).data

/-- The receiver has the stream up to some position. -/
theorem Follows.got_eq {peer : PeerStream} (h : s.Follows writeSeq peer) (hfin : peer.fin = none) :
    ∃ pos, s.got = peer.bytes 0 pos ∧ s.rx.tp.copiedSeq = peer.seqOf pos := by
  obtain ⟨pos, hinv⟩ := h.receiver
  refine ⟨pos, ?_, hinv.delivered.copied_eq⟩
  rw [got, hinv.delivered.out_eq, PeerStream.clip_of_le]
  intro last hlast
  rw [hfin] at hlast
  cases hlast

instance (s : RcvState) (checks : SegmentChecks) :
    ∀ o : Option RcvSkb, Decidable (∀ skb, o = some skb → nearNext s (.segment skb checks))
  | none => .isTrue nofun
  | some skb =>
      decidable_of_iff (s.tp.received < skb.off + 2 ^ 31 ∧ skb.endOff < s.tp.received + 2 ^ 31)
        ⟨fun h _ heq => Option.some.inj heq ▸ h, fun h => h skb rfl⟩

instance (bufs : List (List UInt8)) (n : ℕ) : Decidable (Boundary List.length bufs n) :=
  decidable_of_iff (∃ pre ∈ bufs.inits, total List.length pre = n) <| by
    simp only [List.mem_inits]
    rfl

instance (s : ConnState) : ∀ a, Decidable (connOk s a)
  | .sender a => inferInstanceAs (Decidable (streamOk s.tx a))
  | .transmit _ _ _ _ => inferInstanceAs (Decidable (_ ∧ _))
  | .deliver _ _ => inferInstanceAs (Decidable (_ ∧ _ ∧ _ ∧ _))
  | .receiver _ => .isTrue trivial

end ConnState

end IpAugenblick
