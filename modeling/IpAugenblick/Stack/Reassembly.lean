/-
# Reassembly of a peer's stream

The peer sends the bytes of one stream, cut into segments in any way, and each
segment may arrive late, repeatedly and overlapping others.  What `tcp_recvmsg`
has given out, followed by what `tp->ucopy.iov` still holds, is the beginning of
that stream up to `copied_seq`, as long as every segment arrives less than half
the sequence space away from `rcv_nxt`.

Positions in the stream are plain numbers and sequence numbers their images.
The receive queue is a chain of segments that starts at or before `copied_seq`
and leads to `rcv_nxt` without a gap; the out-of-order queue is sorted and lies
behind `rcv_nxt`.
-/

import IpAugenblick.Stack.TcpInput
import Mathlib.Data.List.Range
import Mathlib.Data.List.TakeWhile

namespace IpAugenblick

open Lib Lib.Serial

/-- What the peer sends: its bytes, numbered from `isn` on, and where its FIN stands. -/
structure PeerStream where
  isn : SeqNum
  byte : ℕ → UInt8
  fin : Option ℕ

namespace RcvSkb

def endOff (skb : RcvSkb) : ℕ := skb.off + skb.data.length + if skb.fin then 1 else 0

end RcvSkb

namespace PeerStream

variable (peer : PeerStream)

def seqOf (n : ℕ) : SeqNum := ofPos peer.isn n

/-- `len` bytes of the stream from position `start` on. -/
def bytes (start len : ℕ) : List UInt8 := (List.range' start len).map peer.byte

/-- How many bytes lie before a position: the FIN is none. -/
def clip (n : ℕ) : ℕ :=
  match peer.fin with
  | none => n
  | some last => min n last

/-- The segment carries its piece of the stream. -/
structure Carries (skb : RcvSkb) : Prop where
  seq_eq : skb.seq = peer.seqOf skb.off
  data_eq : skb.data = peer.bytes skb.off skb.data.length
  within : ∀ last, peer.fin = some last → skb.off + skb.data.length ≤ last
  fin_eq : skb.fin = true → peer.fin = some (skb.off + skb.data.length)
  /-- The mbuf ends where the payload ends. -/
  trailer_eq : skb.trailer = []

variable {peer} {skb : RcvSkb}

theorem bytes_append (start m n : ℕ) :
    peer.bytes start m ++ peer.bytes (start + m) n = peer.bytes start (m + n) := by
  rw [bytes, bytes, bytes, ← List.map_append, List.range'_append_1]

@[simp]
theorem length_bytes (start len : ℕ) : (peer.bytes start len).length = len := by
  rw [bytes, List.length_map, List.length_range']

theorem drop_bytes (start len k : ℕ) :
    (peer.bytes start len).drop k = peer.bytes (start + k) (len - k) := by
  rw [bytes, bytes, ← List.map_drop, List.drop_range', Nat.mul_one]

theorem endSeq_eq (h : peer.Carries skb) : skb.endSeq = peer.seqOf skb.endOff := by
  rw [RcvSkb.endSeq, h.seq_eq, seqOf, ofPos_add_ofNat, seqOf, RcvSkb.endOff, Nat.add_assoc]

/-- A segment ends with the stream, at the latest. -/
theorem endOff_le (h : peer.Carries skb) {last : ℕ} (hfin : peer.fin = some last) :
    skb.endOff ≤ last + 1 := by
  have hin := h.within last hfin
  unfold RcvSkb.endOff
  split <;> omega

theorem before_seqOf {m n : ℕ} (hmn : m < n + 2 ^ 31) (hnm : n ≤ m + 2 ^ 31) :
    before (peer.seqOf m) (peer.seqOf n) = decide (m < n) :=
  before_ofPos (by decide) hmn hnm

theorem after_seqOf {m n : ℕ} (hmn : m < n + 2 ^ 31) (hnm : n ≤ m + 2 ^ 31) :
    after (peer.seqOf n) (peer.seqOf m) = decide (m < n) :=
  before_seqOf hmn hnm

theorem clip_of_le {n : ℕ} (h : ∀ last, peer.fin = some last → n ≤ last) : peer.clip n = n := by
  unfold clip
  split
  next => rfl
  next last hfin => exact Nat.min_eq_left (h last hfin)

theorem clip_of_ge {n last : ℕ} (hfin : peer.fin = some last) (h : last ≤ n) :
    peer.clip n = last := by
  simp only [clip, hfin]
  exact Nat.min_eq_right h

/-! ## The two queues -/

variable (peer) in
/-- The queue leads from position `pos` to position `stop` without a gap.  A FIN that was eaten
with its segment leaves `stop` one ahead. -/
def Chained (stop : ℕ) : ℕ → List RcvSkb → Prop
  | pos, [] => pos = stop ∨ peer.fin = some pos ∧ stop = pos + 1
  | pos, skb :: rest =>
      peer.Carries skb ∧ skb.off ≤ pos ∧ pos < skb.endOff ∧ pos < skb.off + 2 ^ 31 ∧
        Chained stop skb.endOff rest

theorem Chained.le {stop : ℕ} : ∀ {pos : ℕ} {queue : List RcvSkb},
    peer.Chained stop pos queue → pos ≤ stop := by
  intro pos queue
  induction queue generalizing pos with
  | nil =>
      rintro (h | ⟨_, h⟩)
      · exact Nat.le_of_eq h
      · omega
  | cons skb rest ih =>
      rintro ⟨_, _, hpos, _, hrest⟩
      exact Nat.le_of_lt (Nat.lt_of_lt_of_le hpos (ih hrest))

/-- A reader that has caught up has an empty queue before it. -/
theorem Chained.eq_nil {stop : ℕ} {queue : List RcvSkb} (h : peer.Chained stop stop queue) :
    queue = [] := by
  cases queue with
  | nil => rfl
  | cons skb rest =>
      obtain ⟨_, _, hpos, _, hrest⟩ := h
      exact absurd hrest.le (Nat.not_le.2 hpos)

/-- The queue is at least as long as the way it leads. -/
theorem Chained.le_truesize {stop : ℕ} : ∀ {pos : ℕ} {queue : List RcvSkb},
    peer.Chained stop pos queue → stop ≤ pos + queueTruesize queue + 1 := by
  intro pos queue
  induction queue generalizing pos with
  | nil =>
      rintro (h | ⟨_, h⟩) <;> omega
  | cons skb rest ih =>
      rintro ⟨hskb, hoff, hpos, _, hrest⟩
      have htrue := skb.data_le_truesize
      have hsum : queueTruesize (skb :: rest) = skb.truesize + queueTruesize rest := by
        simp [queueTruesize]
      cases hfin : skb.fin with
      | false =>
          have hend : skb.endOff = skb.off + skb.data.length := by simp [RcvSkb.endOff, hfin]
          have := ih hrest
          omega
      | true =>
          have hend : skb.endOff = skb.off + skb.data.length + 1 := by simp [RcvSkb.endOff, hfin]
          have hstop : stop = skb.endOff := by
            cases rest with
            | nil =>
                rcases hrest with h | ⟨h, _⟩
                · exact h.symm
                · have := hskb.fin_eq hfin
                  rw [this, Option.some.injEq] at h
                  omega
            | cons next rest =>
                obtain ⟨hnext, _, hlt, _, _⟩ := hrest
                have := endOff_le hnext (hskb.fin_eq hfin)
                omega
          omega

/-- A segment that covers `stop` extends the chain. -/
theorem Chained.snoc {stop : ℕ} (hskb : peer.Carries skb) (hoff : skb.off ≤ stop)
    (hstop : stop < skb.endOff) (hnear : stop < skb.off + 2 ^ 31) :
    ∀ {pos : ℕ} {queue : List RcvSkb}, peer.Chained stop pos queue →
      peer.Chained skb.endOff pos (queue ++ [skb]) := by
  intro pos queue
  induction queue generalizing pos with
  | nil =>
      rintro (h | ⟨hfin, h⟩)
      · subst h
        exact ⟨hskb, hoff, hstop, hnear, .inl rfl⟩
      · have := endOff_le hskb hfin
        omega
  | cons first rest ih =>
      rintro ⟨hfirst, hle, hlt, hn, hrest⟩
      exact ⟨hfirst, hle, hlt, hn, ih hrest⟩

variable (peer) in
/-- A segment of the stream behind `base`, within half the sequence space of it. -/
structure Ahead (base : ℕ) (skb : RcvSkb) : Prop where
  carries : peer.Carries skb
  lower : base < skb.off
  upper : skb.endOff < base + 2 ^ 31

/-- Segments ahead of one position are ordered as their sequence numbers are. -/
theorem Ahead.after_seq {base : ℕ} {p q : RcvSkb} (hp : peer.Ahead base p)
    (hq : peer.Ahead base q) : after q.seq p.seq = decide (p.off < q.off) := by
  have hlow := hp.lower
  have hlow' := hq.lower
  have hup := hp.upper
  have hup' := hq.upper
  unfold RcvSkb.endOff at hup hup'
  rw [hp.carries.seq_eq, hq.carries.seq_eq]
  exact after_seqOf (by omega) (by omega)

variable (peer) in
/-- The out-of-order queue: ahead of `base` and in the order of the stream. -/
structure Sorted (base : ℕ) (queue : List RcvSkb) : Prop where
  ahead : ∀ q ∈ queue, peer.Ahead base q
  order : queue.Pairwise fun p q => p.off ≤ q.off

theorem Sorted.nil (base : ℕ) : peer.Sorted base [] := ⟨by simp, .nil⟩

theorem Sorted.singleton {base : ℕ} (h : peer.Ahead base skb) : peer.Sorted base [skb] :=
  ⟨fun _ hq => List.mem_singleton.1 hq ▸ h, List.pairwise_singleton _ _⟩

/-- A segment put between those that do not start after it and those that do not start before it
leaves the queue sorted. -/
theorem Sorted.insert {base : ℕ} {front back small : List RcvSkb}
    (h : peer.Sorted base (front ++ back)) (hskb : peer.Ahead base skb)
    (hfront : ∀ q ∈ front, q.off ≤ skb.off) (hback : ∀ q ∈ back, skb.off ≤ q.off)
    (hsub : small.Sublist back) : peer.Sorted base (front ++ skb :: small) := by
  obtain ⟨hfirst, hlast, hcross⟩ := List.pairwise_append.1 h.order
  refine ⟨fun q hq => ?_, List.pairwise_append.2 ⟨hfirst, ?_, fun p hp q hq => ?_⟩⟩
  · rcases List.mem_append.1 hq with hq | hq
    next => exact h.ahead q (List.mem_append_left _ hq)
    next =>
      rcases List.mem_cons.1 hq with rfl | hq
      next => exact hskb
      next => exact h.ahead q (List.mem_append_right _ (hsub.subset hq))
  · exact List.pairwise_cons.2 ⟨fun q hq => hback q (hsub.subset hq), hlast.sublist hsub⟩
  · rcases List.mem_cons.1 hq with rfl | hq
    next => exact hfront p hp
    next => exact hcross p hp q (hsub.subset hq)

end PeerStream

theorem dropCovered_sublist (skb : RcvSkb) :
    ∀ queue : List RcvSkb, (dropCovered skb queue).Sublist queue := by
  intro queue
  induction queue with
  | nil => exact .slnil
  | cons next rest ih =>
      unfold dropCovered
      split
      next => exact .refl _
      next =>
        split
        next => exact .refl _
        next => exact ih.cons next

namespace PeerStream

variable {peer : PeerStream} {skb : RcvSkb}

/-- `insertOfo` keeps the out-of-order queue sorted. -/
theorem Sorted.insertOfo {base : ℕ} {queue : List RcvSkb} (h : peer.Sorted base queue)
    (hskb : peer.Ahead base skb) : peer.Sorted base (insertOfo queue skb) := by
  have hcmp : ∀ q ∈ queue, after q.seq skb.seq = decide (skb.off < q.off) :=
    fun q hq => hskb.after_seq (h.ahead q hq)
  unfold IpAugenblick.insertOfo
  dsimp only
  generalize hlater : (queue.reverse.takeWhile fun q => after q.seq skb.seq).reverse = later
  generalize hwalk : (queue.reverse.dropWhile fun q => after q.seq skb.seq) = walk
  have hsplit : walk.reverse ++ later = queue := by
    rw [← hlater, ← hwalk, ← List.reverse_append, List.takeWhile_append_dropWhile,
      List.reverse_reverse]
  have hback : ∀ q ∈ later, skb.off < q.off := by
    intro q hq
    have hin : q ∈ queue := hsplit ▸ List.mem_append_right _ hq
    have hafter := List.mem_takeWhile_imp (List.mem_reverse.1 (hlater.symm ▸ hq))
    simpa [hcmp q hin] using hafter
  rw [← hsplit] at h hcmp
  cases walk with
  | nil =>
      exact h.insert hskb (by simp) (fun q hq => Nat.le_of_lt (hback q hq))
        (dropCovered_sublist skb later)
  | cons skb1 earlier =>
      have hin : skb1 ∈ (skb1 :: earlier).reverse ++ later := by simp
      have hstop : skb1.off ≤ skb.off := by
        have hnot := List.head?_dropWhile_not (fun q => after q.seq skb.seq) queue.reverse
        simp only [hwalk, List.head?_cons, hcmp skb1 hin] at hnot
        simpa using hnot
      have hfront : ∀ q ∈ (skb1 :: earlier).reverse, q.off ≤ skb.off := by
        intro q hq
        refine Nat.le_trans ?_ hstop
        have horder := (List.pairwise_append.1 h.order).1
        simp only [List.reverse_cons, List.pairwise_append, List.mem_singleton] at horder
        simp only [List.reverse_cons, List.mem_append, List.mem_singleton] at hq
        rcases hq with hq | rfl
        next => exact horder.2.2 q hq skb1 rfl
        next => exact Nat.le_refl _
      have hbehind : peer.Sorted base ((skb1 :: earlier).reverse ++ skb :: dropCovered skb later) :=
        h.insert hskb hfront (fun q hq => Nat.le_of_lt (hback q hq))
          (dropCovered_sublist skb later)
      dsimp only
      split
      next =>
        split
        next => exact hsplit ▸ h
        next =>
          split
          next => exact hbehind
          next hsame =>
            rw [(h.ahead skb1 hin).after_seq hskb] at hsame
            have heq : skb.off ≤ skb1.off := by simpa using hsame
            have hmove : (skb1 :: earlier).reverse ++ later = earlier.reverse ++ skb1 :: later := by
              simp
            rw [hmove] at h
            refine h.insert hskb (fun q hq => hfront q (by simp_all)) (fun q hq => ?_)
              (dropCovered_sublist skb (skb1 :: later))
            rcases List.mem_cons.1 hq with rfl | hq
            next => exact heq
            next => exact Nat.le_of_lt (hback q hq)
      next => exact hbehind

/-! ## What each path does -/

variable (peer) in
/-- The reader holds `out`, and position `pos` is the next it gets. -/
structure Delivered (tp : TcpRcv) (out : List UInt8) (pos : ℕ) : Prop where
  copied_eq : tp.copiedSeq = peer.seqOf pos
  next_eq : tp.rcvNxt = peer.seqOf tp.received
  out_eq : out ++ tp.iov.flatten = peer.bytes 0 (peer.clip pos)
  chain : peer.Chained tp.received pos tp.receiveQueue

variable {tp : TcpRcv} {out : List UInt8} {pos : ℕ}

theorem received_advance (hnext : tp.rcvNxt = peer.seqOf tp.received) (hskb : peer.Carries skb)
    (hle : tp.received ≤ skb.endOff) (hup : skb.endOff < tp.received + 2 ^ 31) :
    (tp.advance skb.endSeq).received = skb.endOff := by
  have hsub : (skb.endSeq - tp.rcvNxt).toNat = skb.endOff - tp.received := by
    rw [endSeq_eq hskb, hnext]
    exact toNat_ofPos_sub hle (by omega)
  simp only [TcpRcv.advance, hsub]
  omega

/-- What an in-order copy appends is the next piece of the stream. -/
theorem out_append (hskb : peer.Carries skb) {n : ℕ} (hoff : skb.off ≤ n)
    (hin : n ≤ skb.off + skb.data.length) :
    peer.bytes 0 (peer.clip n) ++ (skb.data ++ skb.trailer).drop (n - skb.off) =
      peer.bytes 0 (peer.clip (skb.off + skb.data.length)) := by
  have hdrop : (skb.data ++ skb.trailer).drop (n - skb.off) =
      peer.bytes n (skb.off + skb.data.length - n) := by
    rw [hskb.trailer_eq, List.append_nil]
    conv_lhs => rw [hskb.data_eq]
    rw [drop_bytes]
    congr 1 <;> omega
  have hclip : peer.clip n = n := clip_of_le fun last h => Nat.le_trans hin (hskb.within last h)
  have happend : peer.bytes 0 n ++ peer.bytes n (skb.off + skb.data.length - n) =
      peer.bytes 0 (skb.off + skb.data.length) := by
    rw [← Nat.zero_add n, ← Nat.add_sub_cancel' hin, Nat.zero_add n, Nat.add_sub_cancel_left]
    simpa using bytes_append 0 n (skb.off + skb.data.length - n)
  rw [hdrop, hclip, clip_of_le hskb.within, happend]

/-- Linking the rest of a segment behind what the reader has. -/
theorem Delivered.out_copy (h : peer.Delivered tp out pos) (hskb : peer.Carries skb)
    (hoff : skb.off ≤ pos) (hin : pos ≤ skb.off + skb.data.length) :
    out ++ (tp.skbCopyDatagramIovec skb (pos - skb.off)).iov.flatten =
      peer.bytes 0 (peer.clip (skb.off + skb.data.length)) := by
  unfold TcpRcv.skbCopyDatagramIovec
  split
  next =>
    simp only [TcpRcv.memcpyToiovec, List.flatten_append, List.flatten_cons, List.flatten_nil,
      List.append_nil]
    rw [← List.append_assoc, h.out_eq]
    exact out_append hskb hoff hin
  next hend =>
    have heq : pos = skb.off + skb.data.length := by omega
    exact heq ▸ h.out_eq

theorem received_copyInOrder (hnext : tp.rcvNxt = peer.seqOf tp.received)
    (hskb : peer.Carries skb) (hle : tp.received ≤ skb.endOff)
    (hup : skb.endOff < tp.received + 2 ^ 31) :
    ((tp.copyInOrder skb).advance skb.endSeq).received = skb.endOff := by
  obtain ⟨iov, hcopy⟩ := tp.copyInOrder_eq skb
  rw [hcopy]
  exact received_advance hnext hskb hle hup

/-- A segment eaten at once. -/
theorem Delivered.copyInOrder (h : peer.Delivered tp out tp.received) (hskb : peer.Carries skb)
    (hoff : skb.off = tp.received) (hle : tp.received ≤ skb.endOff)
    (hup : skb.endOff < tp.received + 2 ^ 31) :
    peer.Delivered ((tp.copyInOrder skb).advance skb.endSeq) out
      (tp.received + skb.data.length) := by
  have hnew := received_copyInOrder h.next_eq hskb hle hup
  obtain ⟨iov, hcopy⟩ := tp.copyInOrder_eq skb
  refine ⟨?_, ?_, ?_, ?_⟩
  case refine_1 =>
    show tp.copiedSeq + BitVec.ofNat 32 skb.data.length = _
    rw [h.copied_eq, seqOf, ofPos_add_ofNat, seqOf]
  case refine_2 => rw [hnew, ← endSeq_eq hskb, TcpRcv.advance]
  case refine_3 =>
    have hout := h.out_copy hskb (Nat.le_of_eq hoff) (by omega)
    rw [hoff, Nat.sub_self] at hout
    exact hout
  case refine_4 =>
    rw [hnew, hcopy]
    show peer.Chained skb.endOff _ tp.receiveQueue
    rw [h.chain.eq_nil]
    cases hfin : skb.fin with
    | false => exact .inl (by simp [RcvSkb.endOff, hfin, hoff])
    | true =>
        refine .inr ⟨?_, by simp [RcvSkb.endOff, hfin, hoff]⟩
        rw [hskb.fin_eq hfin, hoff]

/-- A segment queued for the reader. -/
theorem Delivered.tcpQueueRcv (h : peer.Delivered tp out pos) (hskb : peer.Carries skb)
    (hoff : skb.off ≤ tp.received) (hnew : tp.received < skb.endOff)
    (hlow : tp.received < skb.off + 2 ^ 31) (hup : skb.endOff < tp.received + 2 ^ 31) :
    peer.Delivered (tp.tcpQueueRcv skb) out pos := by
  have hreceived : (tp.tcpQueueRcv skb).received = skb.endOff :=
    received_advance h.next_eq hskb (Nat.le_of_lt hnew) hup
  refine ⟨h.copied_eq, ?_, h.out_eq, ?_⟩
  · rw [hreceived, ← endSeq_eq hskb]
    rfl
  · rw [hreceived]
    exact h.chain.snoc hskb hoff hnew hlow

variable (peer) in
/-- The receive side between two steps. -/
structure Assembled (tp : TcpRcv) (out : List UInt8) (pos : ℕ) : Prop where
  delivered : peer.Delivered tp out pos
  sorted : peer.Sorted tp.received tp.outOfOrderQueue
  /-- Header prediction is off while segments wait for a gap to be filled. -/
  predicted : tp.predFlags = true → tp.outOfOrderQueue = []

/-- `tcp_ofo_queue` moves what has become contiguous and leaves what lies ahead. -/
theorem Delivered.tcpOfoQueue {base : ℕ} : ∀ {queue : List RcvSkb} {tp : TcpRcv},
    peer.Delivered tp out pos → base ≤ tp.received → tp.received < base + 2 ^ 31 →
      peer.Sorted base queue → tp.predFlags = false →
        peer.Assembled (tp.tcpOfoQueue queue) out pos := by
  intro queue
  induction queue with
  | nil =>
      intro tp h _ _ _ _
      exact ⟨⟨h.copied_eq, h.next_eq, h.out_eq, h.chain⟩, Sorted.nil _, fun _ => rfl⟩
  | cons q rest ih =>
      intro tp h hbase hnear hsorted hpred
      have hq := hsorted.ahead q List.mem_cons_self
      have hrest : peer.Sorted base rest :=
        ⟨fun p hp => hsorted.ahead p (List.mem_cons_of_mem q hp), hsorted.order.of_cons⟩
      have hlow := hq.lower
      have hup := hq.upper
      have hoffEnd : q.off ≤ q.endOff := by
        unfold RcvSkb.endOff
        omega
      have hseq : after q.seq tp.rcvNxt = decide (tp.received < q.off) := by
        rw [hq.carries.seq_eq, h.next_eq]
        exact after_seqOf (by omega) (by omega)
      have hend : after q.endSeq tp.rcvNxt = decide (tp.received < q.endOff) := by
        rw [endSeq_eq hq.carries, h.next_eq]
        exact after_seqOf (by omega) (by omega)
      unfold TcpRcv.tcpOfoQueue
      rw [hseq, hend]
      split
      next hahead =>
        have hahead : tp.received < q.off := by simpa using hahead
        refine ⟨⟨h.copied_eq, h.next_eq, h.out_eq, h.chain⟩, ⟨fun p hp => ?_, hsorted.order⟩, ?_⟩
        · have hp' := hsorted.ahead p hp
          have hle : q.off ≤ p.off := by
            rcases List.mem_cons.1 hp with rfl | hp
            next => exact Nat.le_refl _
            next => exact (List.pairwise_cons.1 hsorted.order).1 p hp
          have hlt : p.endOff < tp.received + 2 ^ 31 :=
            Nat.lt_of_lt_of_le hp'.upper (Nat.add_le_add_right hbase _)
          exact ⟨hp'.carries, Nat.lt_of_lt_of_le hahead hle, hlt⟩
        · exact fun htrue => absurd (hpred.symm.trans htrue) (by decide)
      next hahead =>
        have hcontig : q.off ≤ tp.received := by simpa using hahead
        split
        next => exact ih h hbase hnear hrest hpred
        next hold =>
          have hnew : tp.received < q.endOff := by simpa using hold
          have hlt : q.endOff < tp.received + 2 ^ 31 := by omega
          have hmoved : peer.Delivered (tp.tcpQueueRcv q) out pos :=
            h.tcpQueueRcv hq.carries hcontig hnew (by omega) hlt
          have hreceived : (tp.tcpQueueRcv q).received = q.endOff :=
            received_advance h.next_eq hq.carries (Nat.le_of_lt hnew) hlt
          split
          next =>
            exact ⟨⟨hmoved.copied_eq, hmoved.next_eq, hmoved.out_eq, hmoved.chain⟩, Sorted.nil _,
              fun _ => rfl⟩
          next => exact ih hmoved (by omega) (by omega) hrest hpred

/-- Turning header prediction on again. -/
theorem Assembled.tcpFastPathCheck (h : peer.Assembled tp out pos) :
    peer.Assembled tp.tcpFastPathCheck out pos := by
  unfold TcpRcv.tcpFastPathCheck
  split
  next hok =>
    refine ⟨⟨h.delivered.copied_eq, h.delivered.next_eq, h.delivered.out_eq, h.delivered.chain⟩,
      h.sorted, fun _ => ?_⟩
    simp only [Bool.and_eq_true, List.isEmpty_iff] at hok
    exact hok.1.1
  next => exact h

/-- The end of `tcp_data_queue`: `rcv_nxt` has moved on from `base`. -/
theorem Delivered.dataTaken (base : ℕ) (h : peer.Delivered tp out pos) (hbase : base ≤ tp.received)
    (hnear : tp.received < base + 2 ^ 31) (hsorted : peer.Sorted base tp.outOfOrderQueue)
    (hpred : tp.predFlags = true → tp.outOfOrderQueue = []) :
    peer.Assembled (tp.dataTaken skb) out pos := by
  unfold TcpRcv.dataTaken
  refine Assembled.tcpFastPathCheck ?_
  cases hfin : skb.fin with
  | true =>
      exact ⟨⟨h.copied_eq, h.next_eq, h.out_eq, h.chain⟩, Sorted.nil _, fun _ => rfl⟩
  | false =>
      cases hqueue : tp.outOfOrderQueue with
      | nil =>
          refine ⟨?_, ?_, ?_⟩
          all_goals simp [hqueue, h, Sorted.nil]
      | cons q rest =>
          have hoff : tp.predFlags = false := by
            cases hflag : tp.predFlags with
            | false => rfl
            | true => exact absurd (hqueue.symm.trans (hpred hflag)) (List.cons_ne_nil q rest)
          simpa [hqueue] using h.tcpOfoQueue hbase hnear hsorted hoff

variable {C : Collapse} {mem : RcvMem}

theorem tcpTryRmemSchedule_of_room (hroom : tp.skRmemAlloc ≤ tp.skRcvbuf)
    (hmem : mem.scheduled = true) : tp.tcpTryRmemSchedule C mem = (true, tp) := by
  simp [TcpRcv.tcpTryRmemSchedule, hroom, hmem]

variable (peer) in
/-- A segment that can be taken for what it is: it lies less than half the sequence space away
from `rcv_nxt`. -/
structure Near (tp : TcpRcv) (skb : RcvSkb) : Prop where
  carries : peer.Carries skb
  lower : tp.received < skb.off + 2 ^ 31
  upper : skb.endOff < tp.received + 2 ^ 31

/-- The sequence number of a segment says whether it is next in order. -/
theorem Near.seq_eq_next (hskb : peer.Near tp skb) (h : peer.Delivered tp out pos) :
    skb.seq = tp.rcvNxt ↔ skb.off = tp.received := by
  have hlow := hskb.lower
  have hup := hskb.upper
  unfold RcvSkb.endOff at hup
  rw [hskb.carries.seq_eq, h.next_eq]
  exact ofPos_inj (by omega) (by omega)

/-- The reader has caught up when `copied_seq` is `rcv_nxt`: the receive queue is too short for
the numbers to meet again. -/
theorem Delivered.copied_eq_next (h : peer.Delivered tp out pos) (hroom : tp.skRmemAlloc < 2 ^ 31)
    (heq : tp.copiedSeq = tp.rcvNxt) : pos = tp.received := by
  have hle := h.chain.le
  have hshort := h.chain.le_truesize
  unfold TcpRcv.skRmemAlloc at hroom
  rw [h.copied_eq, h.next_eq] at heq
  exact (ofPos_inj (by omega) (by omega)).1 heq

/-- A segment that covers `rcv_nxt`, from `queue_and_out` on. -/
theorem Assembled.queueAndOut (h : peer.Assembled tp out pos) (hskb : peer.Near tp skb)
    (hoff : skb.off ≤ tp.received) (hnew : tp.received < skb.endOff)
    (hroom : tp.skRmemAlloc ≤ tp.skRcvbuf) (hmem : mem.scheduled = true) :
    peer.Assembled (tp.queueAndOut C skb mem) out pos := by
  unfold TcpRcv.queueAndOut
  rw [tcpTryRmemSchedule_of_room hroom hmem]
  have hqueued := h.delivered.tcpQueueRcv hskb.carries hoff hnew hskb.lower hskb.upper
  have hreceived : (tp.tcpQueueRcv skb).received = skb.endOff :=
    received_advance h.delivered.next_eq hskb.carries (Nat.le_of_lt hnew) hskb.upper
  refine hqueued.dataTaken tp.received ?_ ?_ h.sorted h.predicted
  · rw [hreceived]
    exact Nat.le_of_lt hnew
  · rw [hreceived]
    exact hskb.upper

/-- A segment that `tcp_data_queue` eats. -/
theorem Assembled.eatenInOrder (h : peer.Assembled tp out tp.received) (hskb : peer.Near tp skb)
    (hoff : skb.off = tp.received) (hnew : tp.received < skb.endOff) :
    peer.Assembled (((tp.copyInOrder skb).advance skb.endSeq).dataTaken skb) out
      (tp.received + skb.data.length) := by
  have hle := Nat.le_of_lt hnew
  have heaten := h.delivered.copyInOrder hskb.carries hoff hle hskb.upper
  have hreceived := received_copyInOrder h.delivered.next_eq hskb.carries hle hskb.upper
  obtain ⟨iov, hcopy⟩ := tp.copyInOrder_eq skb
  refine heaten.dataTaken tp.received ?_ ?_ ?_ ?_
  · rw [hreceived]
    exact hle
  · rw [hreceived]
    exact hskb.upper
  · rw [hcopy]
    exact h.sorted
  · rw [hcopy]
    exact h.predicted

/-- A segment behind a gap. -/
theorem Assembled.tcpDataQueueOfo (h : peer.Assembled tp out pos) (hskb : peer.Near tp skb)
    (hoff : tp.received < skb.off) (hroom : tp.skRmemAlloc ≤ tp.skRcvbuf)
    (hmem : mem.scheduled = true) : peer.Assembled (tp.tcpDataQueueOfo C skb mem) out pos := by
  have hahead : peer.Ahead tp.received skb := ⟨hskb.carries, hoff, hskb.upper⟩
  have hkeep : ∀ queue, peer.Sorted tp.received queue →
      peer.Assembled { tp with predFlags := false, outOfOrderQueue := queue } out pos := by
    intro queue hqueue
    have hd := h.delivered
    exact ⟨⟨hd.copied_eq, hd.next_eq, hd.out_eq, hd.chain⟩, hqueue, nofun⟩
  unfold TcpRcv.tcpDataQueueOfo
  rw [tcpTryRmemSchedule_of_room hroom hmem]
  dsimp only
  split
  next => exact hkeep _ (Sorted.singleton hahead)
  next last hlast =>
    split
    next hnext =>
      have hlast' := h.sorted.ahead last (List.mem_of_getLast? hlast)
      have hlow := hlast'.lower
      have hup := hlast'.upper
      have hup' := hskb.upper
      have heq : last.off ≤ skb.off := by
        unfold RcvSkb.endOff at hup hup'
        rw [hskb.carries.seq_eq, endSeq_eq hlast'.carries] at hnext
        have hpos : skb.off = last.endOff := by
          refine (ofPos_inj ?_ ?_).1 hnext
          all_goals
            unfold RcvSkb.endOff
            omega
        unfold RcvSkb.endOff at hpos
        omega
      obtain ⟨front, hfront⟩ := List.getLast?_eq_some_iff.1 hlast
      have hsorted := h.sorted
      rw [hfront] at hsorted ⊢
      refine hkeep _ (Sorted.insert (by simpa using hsorted) hahead (fun q hq => ?_)
        (by simp) (List.Sublist.refl []))
      refine Nat.le_trans ?_ heq
      rcases List.mem_append.1 hq with hq | hq
      next => exact (List.pairwise_append.1 hsorted.order).2.2 q hq last (by simp)
      next => exact Nat.le_of_eq (congrArg _ (List.mem_singleton.1 hq))
    next => exact hkeep _ (h.sorted.insertOfo hahead)

/-- `tcp_data_queue` keeps the stream together, whichever way the segment goes. -/
theorem Assembled.tcpDataQueue (h : peer.Assembled tp out pos) (hskb : peer.Near tp skb)
    (hroom : tp.skRmemAlloc ≤ tp.skRcvbuf) (hint : tp.skRcvbuf < 2 ^ 31)
    (hmem : mem.scheduled = true) :
    ∃ pos', peer.Assembled (tp.tcpDataQueue C skb mem) out pos' := by
  have hlow := hskb.lower
  have hup := hskb.upper
  have hoffEnd : skb.off ≤ skb.endOff := by
    unfold RcvSkb.endOff
    omega
  have hend : after skb.endSeq tp.rcvNxt = decide (tp.received < skb.endOff) := by
    rw [endSeq_eq hskb.carries, h.delivered.next_eq]
    exact after_seqOf (by omega) (by omega)
  have hseq : before skb.seq tp.rcvNxt = decide (skb.off < tp.received) := by
    rw [hskb.carries.seq_eq, h.delivered.next_eq]
    exact before_seqOf (by omega) (by omega)
  unfold TcpRcv.tcpDataQueue
  split
  next => exact ⟨pos, h⟩
  next hsome =>
    split
    next hnext =>
      have hoff := (hskb.seq_eq_next h.delivered).1 hnext
      have hnew : tp.received < skb.endOff := by
        refine Nat.lt_of_le_of_ne (by omega) fun heq => hsome ?_
        rw [endSeq_eq hskb.carries, ← heq, hnext, h.delivered.next_eq]
      split
      next => exact ⟨pos, h⟩
      next =>
        split
        next hcaught =>
          have hpos := h.delivered.copied_eq_next (by omega) hcaught
          subst hpos
          exact ⟨_, h.eatenInOrder hskb hoff hnew⟩
        next => exact ⟨pos, h.queueAndOut hskb (Nat.le_of_eq hoff) hnew hroom hmem⟩
    next hnext =>
      rw [hend, hseq]
      split
      next => exact ⟨pos, h⟩
      next hold =>
        have hnew : tp.received < skb.endOff := by simpa using hold
        split
        next => exact ⟨pos, h⟩
        next =>
          split
          next hpartial =>
            have hoff : skb.off < tp.received := by simpa using hpartial
            split
            next => exact ⟨pos, h⟩
            next => exact ⟨pos, h.queueAndOut hskb (Nat.le_of_lt hoff) hnew hroom hmem⟩
          next hpartial =>
            have hge : tp.received ≤ skb.off := by simpa using hpartial
            have hne : tp.received ≠ skb.off := fun heq =>
              hnext ((hskb.seq_eq_next h.delivered).2 heq.symm)
            exact ⟨pos, h.tcpDataQueueOfo hskb (Nat.lt_of_le_of_ne hge hne) hroom hmem⟩

/-- `tcp_rcv_established` keeps the stream together. -/
theorem Assembled.tcpRcvEstablished (h : peer.Assembled tp out pos) (hskb : peer.Near tp skb)
    {checks : SegmentChecks} (hroom : tp.skRmemAlloc ≤ tp.skRcvbuf) (hint : tp.skRcvbuf < 2 ^ 31)
    (hmem : checks.mem.scheduled = true) :
    ∃ pos', peer.Assembled (tp.tcpRcvEstablished C skb checks) out pos' := by
  have hstep5 : ∃ pos', peer.Assembled (tp.step5 C skb checks) out pos' := by
    unfold TcpRcv.step5
    split
    next => exact h.tcpDataQueue hskb hroom hint hmem
    next => exact ⟨pos, h⟩
  unfold TcpRcv.tcpRcvEstablished
  split
  next hfast =>
    simp only [Bool.and_eq_true, beq_iff_eq, Bool.not_eq_true'] at hfast
    obtain ⟨⟨⟨hpred, _⟩, hfin⟩, hnext⟩ := hfast
    have hoff := (hskb.seq_eq_next h.delivered).1 hnext
    have hnone := h.predicted hpred
    split
    next => exact ⟨pos, h⟩
    next hdata =>
      have hnew : tp.received < skb.endOff := by
        have hpos : 0 < skb.data.length := by
          simpa [List.isEmpty_iff, List.length_pos_iff] using hdata
        unfold RcvSkb.endOff
        omega
      split
      next hcaught =>
        simp only [Bool.and_eq_true, beq_iff_eq, decide_eq_true_eq] at hcaught
        have hpos := h.delivered.copied_eq_next (by omega) hcaught.1.1
        subst hpos
        have heaten := h.delivered.copyInOrder hskb.carries hoff (Nat.le_of_lt hnew) hskb.upper
        obtain ⟨iov, hcopy⟩ := tp.copyInOrder_eq skb
        rw [hcopy] at heaten ⊢
        exact ⟨_, ⟨heaten.copied_eq, heaten.next_eq, heaten.out_eq, heaten.chain⟩,
          hnone.symm ▸ Sorted.nil _, fun _ => hnone⟩
      next =>
        split
        next => exact ⟨pos, h⟩
        next =>
          split
          next => exact hstep5
          next =>
            have hqueued := h.delivered.tcpQueueRcv hskb.carries (Nat.le_of_eq hoff) hnew
              hskb.lower hskb.upper
            exact ⟨pos, hqueued, hnone.symm ▸ Sorted.nil _, fun _ => hnone⟩
  next =>
    split
    next => exact hstep5
    next => exact ⟨pos, h⟩

/-! ## Reading -/

/-- The walk of `tcp_recvmsg` stops at the head of the queue. -/
theorem Delivered.findSkb_cons (h : peer.Delivered tp out pos) {rest : List RcvSkb}
    (hqueue : tp.receiveQueue = skb :: rest) :
    findSkb tp.copiedSeq tp.receiveQueue = some ([], skb, rest) ∧
      (tp.copiedSeq - skb.seq).toNat = pos - skb.off := by
  have hchain := h.chain
  rw [hqueue] at hchain
  obtain ⟨hskb, hoff, hend, hnear, _⟩ := hchain
  have hbefore : before tp.copiedSeq skb.seq = false := by
    rw [h.copied_eq, hskb.seq_eq, before_seqOf (by omega) (by omega)]
    simpa using hoff
  have hoffset : (tp.copiedSeq - skb.seq).toNat = pos - skb.off := by
    rw [h.copied_eq, hskb.seq_eq]
    exact toNat_ofPos_sub hoff (by omega)
  have hfound : ((tp.copiedSeq - skb.seq).toNat < skb.data.length || skb.fin) = true := by
    rw [hoffset]
    unfold RcvSkb.endOff at hend
    cases hfin : skb.fin with
    | true => simp
    | false =>
        simp only [hfin, Bool.false_eq_true, if_false] at hend
        simp only [Bool.or_false, decide_eq_true_eq]
        omega
  refine ⟨?_, hoffset⟩
  rw [hqueue, findSkb, hbefore, hfound]
  rfl

/-- The rest of the head of the queue is linked, whatever of it the reader already has. -/
theorem Delivered.copyRest (h : peer.Delivered tp out pos) (hskb : peer.Carries skb)
    (hoff : skb.off ≤ pos) (hin : pos ≤ skb.off + skb.data.length) :
    ∃ iov iovLen,
      (if pos - skb.off < skb.data.length then
        { tp.skbCopyDatagramIovec skb (pos - skb.off) with
          copiedSeq := tp.copiedSeq + BitVec.ofNat 32 (skb.data.length - (pos - skb.off)) }
        else tp) =
          { tp with iov, iovLen, copiedSeq := peer.seqOf (skb.off + skb.data.length) } ∧
      out ++ iov.flatten = peer.bytes 0 (peer.clip (skb.off + skb.data.length)) := by
  have hout := h.out_copy hskb hoff hin
  have hseq : tp.copiedSeq + BitVec.ofNat 32 (skb.data.length - (pos - skb.off)) =
      peer.seqOf (skb.off + skb.data.length) := by
    rw [h.copied_eq, seqOf, ofPos_add_ofNat, seqOf]
    congr 1
    omega
  split
  next =>
    obtain ⟨iov, hcopy⟩ := tp.skbCopyDatagramIovec_eq skb (pos - skb.off)
    rw [hcopy] at hout
    exact ⟨iov, _, by rw [hcopy, hseq], hout⟩
  next hend =>
    have heq : pos = skb.off + skb.data.length := by omega
    refine ⟨tp.iov, tp.iovLen, ?_, heq ▸ h.out_eq⟩
    rw [← heq, ← h.copied_eq]

/-- The loop of `tcp_recvmsg` moves the reader along the chain. -/
theorem Delivered.recvLoop : ∀ (turns : ℕ) {tp : TcpRcv} {pos : ℕ}, peer.Delivered tp out pos →
    ∃ pos', peer.Delivered (TcpRcv.recvLoop turns tp) out pos' := by
  intro turns
  induction turns with
  | zero => exact fun h => ⟨_, h⟩
  | succ turns ih =>
      intro tp pos h
      cases hqueue : tp.receiveQueue with
      | nil =>
          refine ⟨pos, ?_⟩
          simpa [TcpRcv.recvLoop, hqueue, findSkb] using h
      | cons skb rest =>
          obtain ⟨hfind, hoffset⟩ := h.findSkb_cons hqueue
          have hchain := h.chain
          rw [hqueue] at hchain
          obtain ⟨hskb, hoff, hend, hnear, hrest⟩ := hchain
          have hin : pos ≤ skb.off + skb.data.length := by
            unfold RcvSkb.endOff at hend
            split at hend <;> omega
          obtain ⟨iov, iovLen, hcopy, hout⟩ := h.copyRest hskb hoff hin
          unfold TcpRcv.recvLoop
          rw [hfind]
          dsimp only
          rw [hoffset, hcopy]
          cases hfin : skb.fin with
          | true =>
              have hlast := hskb.fin_eq hfin
              have hendOff : skb.endOff = skb.off + skb.data.length + 1 := by
                simp [RcvSkb.endOff, hfin]
              refine ⟨skb.endOff, ?_, h.next_eq, ?_, hrest⟩
              · rw [hendOff]
                exact ofPos_add_ofNat 1
              · rw [hendOff, clip_of_ge hlast (Nat.le_succ _), ← clip_of_ge hlast (Nat.le_refl _)]
                exact hout
          | false =>
              have hendOff : skb.endOff = skb.off + skb.data.length := by
                simp [RcvSkb.endOff, hfin]
              exact ih ⟨rfl, h.next_eq, hout, hendOff ▸ hrest⟩

/-- `tcp_recvmsg` hands the iovec over, and the reader holds its bytes from then on. -/
theorem Assembled.tcpRecvmsg (h : peer.Assembled tp out pos) :
    ∃ pos', peer.Assembled tp.tcpRecvmsg.2.2 (out ++ tp.tcpRecvmsg.1.flatten) pos' := by
  have hread : ∃ pos', peer.Assembled
      (if tp.receiveQueue.isEmpty then tp else TcpRcv.recvLoop tp.receiveQueue.length tp)
      out pos' := by
    split
    next => exact ⟨pos, h⟩
    next =>
      obtain ⟨pos', hloop⟩ := h.delivered.recvLoop tp.receiveQueue.length
      obtain ⟨iov, iovLen, copiedSeq, receiveQueue, heq, _⟩ :=
        TcpRcv.recvLoop_eq tp.receiveQueue.length tp
      rw [heq] at hloop ⊢
      exact ⟨pos', hloop, h.sorted, h.predicted⟩
  obtain ⟨pos', hread⟩ := hread
  have hd := hread.delivered
  refine ⟨pos', ⟨hd.copied_eq, hd.next_eq, ?_, hd.chain⟩, hread.sorted, hread.predicted⟩
  rw [← hd.out_eq]
  exact List.append_nil _

end PeerStream

/-! ## Runs -/

/-- All bytes that `tcp_recvmsg` has given out. -/
def RcvState.read (s : RcvState) : List UInt8 := (s.returned.map List.flatten).flatten

/-- The segments are pieces of the peer's stream, and there is memory for them: `sk_rcvbuf` is an
`int`, it is not exceeded and `sk_rmem_schedule` succeeds, so that nothing is pruned. -/
def carriedOk (peer : PeerStream) (s : RcvState) : RcvStep → Prop
  | .segment skb checks =>
      peer.Carries skb ∧ s.tp.skRmemAlloc ≤ s.tp.skRcvbuf ∧ s.tp.skRcvbuf < 2 ^ 31 ∧
        checks.mem.scheduled = true
  | _ => True

/-- A segment arrives less than half the sequence space away from `rcv_nxt`. -/
def nearNext (s : RcvState) : RcvStep → Prop
  | .segment skb _ =>
      s.tp.received < skb.off + 2 ^ 31 ∧ skb.endOff < s.tp.received + 2 ^ 31
  | _ => True

/-- What the reader has and what the iovec holds is the stream up to `copied_seq`. -/
def Reassembled (peer : PeerStream) (s : RcvState) : Prop :=
  ∃ pos, s.tp.copiedSeq = peer.seqOf pos ∧
    s.read ++ s.tp.iov.flatten = peer.bytes 0 (peer.clip pos)

/-- The state between two steps of a run: for some position of the stream, everything before it
has been read or is linked in the iovec, and the queues hold pieces of the rest.  The position is
what `copied_seq` stands for. -/
def ReassemblyInv (peer : PeerStream) (s : RcvState) : Prop :=
  ∃ pos, peer.Assembled s.tp s.read pos

section Runs

variable {peer : PeerStream} {C : Collapse} {s t : RcvState}

theorem ReassemblyInv.recvmsg (h : ReassemblyInv peer s) : ReassemblyInv peer s.recvmsg := by
  obtain ⟨pos, h⟩ := h
  obtain ⟨pos', h'⟩ := h.tcpRecvmsg
  refine ⟨pos', ?_⟩
  have hread : s.recvmsg.read = s.read ++ s.tp.tcpRecvmsg.1.flatten := by
    simp [RcvState.read, RcvState.recvmsg]
  rw [hread]
  exact h'

/-- The loop of `user_data_available_cbk` is a number of reads. -/
theorem ReassemblyInv.userDataAvailableCbk : ∀ (ringFree : ℕ) {s : RcvState},
    ReassemblyInv peer s → ReassemblyInv peer (userDataAvailableCbk ringFree s) := by
  intro ringFree
  induction ringFree with
  | zero => exact fun h => h
  | succ ringFree ih =>
      intro s h
      unfold IpAugenblick.userDataAvailableCbk
      split
      next => exact h.recvmsg
      next => exact ih h.recvmsg

/-- One step keeps the stream together. -/
theorem ReassemblyInv.step (h : ReassemblyInv peer s) {a : RcvStep} (hstream : carriedOk peer s a)
    (hnear : nearNext s a) (hstep : rcvStep C s a = some t) : ReassemblyInv peer t := by
  obtain ⟨pos, hinv⟩ := h
  have hd := hinv.delivered
  cases a with
  | segment skb checks =>
      obtain ⟨hcarries, hroom, hint, hmem⟩ := hstream
      obtain rfl := Option.some.inj hstep
      exact hinv.tcpRcvEstablished ⟨hcarries, hnear.1, hnear.2⟩ hroom hint hmem
  | recvmsg =>
      obtain rfl := Option.some.inj hstep
      exact ReassemblyInv.recvmsg ⟨pos, hinv⟩
  | dataAvailable =>
      obtain rfl := Option.some.inj hstep
      exact ReassemblyInv.userDataAvailableCbk _ ⟨pos, hinv⟩
  | clientRead =>
      simp only [rcvStep, Option.ite_none_right_eq_some, Option.some.injEq] at hstep
      obtain ⟨_, rfl⟩ := hstep
      exact ⟨pos, hinv⟩
  | sendAck rcvWscale newWin =>
      obtain rfl := Option.some.inj hstep
      refine ⟨pos, ⟨hd.copied_eq, hd.next_eq, hd.out_eq, hd.chain⟩, hinv.sorted, fun hpred => ?_⟩
      exact hinv.predicted (Bool.and_eq_true_iff.1 hpred).1
  | peerWindow =>
      obtain rfl := Option.some.inj hstep
      refine ⟨pos, PeerStream.Assembled.tcpFastPathCheck ?_⟩
      exact ⟨⟨hd.copied_eq, hd.next_eq, hd.out_eq, hd.chain⟩, hinv.sorted, nofun⟩
  | growRcvbuf skRcvbuf =>
      simp only [rcvStep, Option.ite_none_right_eq_some, Option.some.injEq] at hstep
      obtain ⟨_, rfl⟩ := hstep
      exact ⟨pos, ⟨hd.copied_eq, hd.next_eq, hd.out_eq, hd.chain⟩, hinv.sorted, hinv.predicted⟩

/-- **The three receive paths deliver the stream.**  In every run in which segments of the
peer's stream arrive less than half the sequence space away from `rcv_nxt`, the bytes of the
chains that `tcp_recvmsg` gave out, followed by those of `tp->ucopy.iov`, are the stream up to
`copied_seq`. -/
theorem stream_reassembled {rcvWnd : BitVec 32} {predFlags : Bool} {skRcvbuf : ℕ}
    (h : (rcvMachine C peer.isn rcvWnd predFlags skRcvbuf).ReachableWhere
      (fun s a => carriedOk peer s a ∧ nearNext s a) s) : Reassembled peer s := by
  have hinit : ReassemblyInv peer (establishedState peer.isn rcvWnd predFlags skRcvbuf) := by
    refine ⟨0, ⟨ofPos_zero.symm, ofPos_zero.symm, ?_, .inl rfl⟩, PeerStream.Sorted.nil _,
      fun _ => rfl⟩
    rw [PeerStream.clip_of_le fun _ _ => Nat.zero_le _]
    rfl
  have hinv : ReassemblyInv peer s := by
    refine Machine.invariant_of_step _ hinit ?_ h
    intro s a t hs hok hstep
    exact hs.step hok.1 hok.2 hstep
  obtain ⟨pos, hinv⟩ := hinv
  exact ⟨pos, hinv.delivered.copied_eq, hinv.delivered.out_eq⟩

end Runs

def PeerStream.piece (peer : PeerStream) (off len : ℕ) (fin : Bool) : RcvSkb where
  seq := peer.seqOf off
  data := peer.bytes off len
  fin
  trailer := []
  truesize := len + 512
  off
  data_le_truesize := by simp

theorem PeerStream.carries_piece (peer : PeerStream) {off len : ℕ} {fin : Bool}
    (hin : ∀ last, peer.fin = some last → off + len ≤ last)
    (hfin : fin = true → peer.fin = some (off + len)) : peer.Carries (peer.piece off len fin) where
  seq_eq := rfl
  data_eq := by simp [PeerStream.piece]
  within := by simpa [PeerStream.piece] using hin
  fin_eq := by simpa [PeerStream.piece] using hfin
  trailer_eq := rfl

/-- A stream of five bytes whose numbers wrap behind the second. -/
def wrappingStream : PeerStream := ⟨BitVec.ofNat 32 4294967294, fun n => n.toUInt8, some 5⟩

/-- Two segments come in reverse and overlap, the reader reads, the rest comes with bytes that are
already there and the FIN. -/
theorem stream_reassembled_wrapping :
    ∃ s, (rcvMachine Collapse.keep wrappingStream.isn 1000 false 4000).ReachableWhere
        (fun s a => carriedOk wrappingStream s a ∧ nearNext s a) s ∧
      s.read = [0, 1, 2, 3, 4] ∧ s.tp.copiedSeq = 4 ∧ Reassembled wrappingStream s := by
  have hmiddle : wrappingStream.Carries (wrappingStream.piece 2 2 false) :=
    wrappingStream.carries_piece (by decide) nofun
  have hfirst : wrappingStream.Carries (wrappingStream.piece 0 3 false) :=
    wrappingStream.carries_piece (by decide) nofun
  have hlast : wrappingStream.Carries (wrappingStream.piece 3 2 true) :=
    wrappingStream.carries_piece (by decide) (by decide)
  have hrun : (rcvMachine Collapse.keep wrappingStream.isn 1000 false 4000).ReachableWhere
      (fun s a => carriedOk wrappingStream s a ∧ nearNext s a) _ :=
    Machine.ReachableWhere.init
      |>.step (a := RcvStep.segment (wrappingStream.piece 2 2 false) slowChecks)
        ⟨⟨hmiddle, by decide, by decide, rfl⟩, ⟨by decide, by decide⟩⟩ rfl
      |>.step (a := RcvStep.segment (wrappingStream.piece 0 3 false) slowChecks)
        ⟨⟨hfirst, by decide, by decide, rfl⟩, ⟨by decide, by decide⟩⟩ rfl
      |>.step (a := RcvStep.recvmsg) ⟨trivial, trivial⟩ rfl
      |>.step (a := RcvStep.segment (wrappingStream.piece 3 2 true) slowChecks)
        ⟨⟨hlast, by decide, by decide, rfl⟩, ⟨by decide, by decide⟩⟩ rfl
      |>.step (a := RcvStep.recvmsg) ⟨trivial, trivial⟩ rfl
  exact ⟨_, hrun, by decide, by decide, stream_reassembled hrun⟩

/-- A first turn of the sequence numbers all zeros, with ones behind it. -/
def turnByte (n : ℕ) : UInt8 := if n < 2 ^ 32 then 0 else 1

/-- The stream of these bytes. -/
def oneTurn : PeerStream := ⟨0, turnByte, none⟩

/-- The connection after `n` bytes, each eaten on arrival and acknowledged. -/
def oneTurnState (n : ℕ) : RcvState where
  tp :=
    { rcvNxt := oneTurn.seqOf n, copiedSeq := oneTurn.seqOf n, rcvWup := oneTurn.seqOf n,
      rcvWnd := 1000#32, predFlags := true, ucopyLen := 0,
      iov := (List.range n).map fun k => [oneTurn.byte k], iovLen := n, receiveQueue := [],
      outOfOrderQueue := [], skRcvbuf := 4000, received := n }
  returned := []
  rxRing := 0

/-- A byte with the right number is eaten, whatever its place in the stream. -/
theorem oneTurn_eaten (n : ℕ) (skb : RcvSkb) (hseq : skb.seq = oneTurn.seqOf n) {b : UInt8}
    (hdata : skb.data = [b]) (hfin : skb.fin = false) (htrail : skb.trailer = []) :
    (oneTurnState n).tp.tcpRcvEstablished Collapse.keep skb slowChecks =
      { (oneTurnState n).tp with
        rcvNxt := oneTurn.seqOf (n + 1)
        copiedSeq := oneTurn.seqOf (n + 1)
        iov := (oneTurnState n).tp.iov ++ [[b]]
        iovLen := n + 1
        received := n + 1 } := by
  have hend : skb.endSeq = oneTurn.seqOf (n + 1) := by
    rw [RcvSkb.endSeq, hseq, hdata, hfin]
    exact ofPos_add_ofNat 1
  have hwindow : (oneTurnState n).tp.tcpReceiveWindow = 1000#32 := by
    have hwin : (oneTurnState n).tp.rcvWup + (oneTurnState n).tp.rcvWnd -
        (oneTurnState n).tp.rcvNxt = 1000#32 := by
      show oneTurn.seqOf n + 1000#32 - oneTurn.seqOf n = 1000#32
      rw [BitVec.add_comm (oneTurn.seqOf n) (1000#32), BitVec.add_sub_cancel]
    simp only [TcpRcv.tcpReceiveWindow, hwin]
    decide
  have hin : (oneTurnState n).tp.tcpSequence skb.seq skb.endSeq = true := by
    have hlow : before skb.endSeq (oneTurnState n).tp.rcvWup = false := by
      rw [hend]
      exact (PeerStream.before_seqOf (by omega) (by omega)).trans (by simp)
    have hhigh : after skb.seq ((oneTurnState n).tp.rcvNxt + 1000#32) = false := by
      have hadd : (oneTurnState n).tp.rcvNxt + 1000#32 = oneTurn.seqOf (n + 1000) :=
        ofPos_add_ofNat 1000
      rw [hseq, hadd]
      exact (PeerStream.after_seqOf (by omega) (by omega)).trans (by simp)
    rw [TcpRcv.tcpSequence, hwindow, hlow, hhigh]
    rfl
  have hne : skb.seq ≠ skb.endSeq := by
    rw [hseq, hend]
    intro heq
    have := (ofPos_inj (by omega) (by omega)).1 heq
    omega
  have hnext : skb.seq = (oneTurnState n).tp.rcvNxt := hseq
  have hcaught : (oneTurnState n).tp.copiedSeq = skb.seq := hseq.symm
  have heaten : (oneTurnState n).tp.tcpRcvEstablished Collapse.keep skb slowChecks =
      (((oneTurnState n).tp.copyInOrder skb).advance skb.endSeq).dataTaken skb := by
    simp [TcpRcv.tcpRcvEstablished, TcpRcv.step5, TcpRcv.tcpDataQueue, slowChecks, hin, hne,
      ← hnext, hcaught, hwindow]
  have hcopied : oneTurn.seqOf n + 1#32 = oneTurn.seqOf (n + 1) := ofPos_add_ofNat 1
  have hcount : (oneTurn.seqOf (n + 1) - oneTurn.seqOf n).toNat = 1 :=
    (toNat_ofPos_sub (Nat.le_succ n) (by omega)).trans (by omega)
  rw [heaten]
  simp [TcpRcv.dataTaken, TcpRcv.copyInOrder, TcpRcv.skbCopyDatagramIovec, TcpRcv.memcpyToiovec,
    TcpRcv.advance, TcpRcv.tcpFastPathCheck, TcpRcv.skRmemAlloc, queueTruesize, oneTurnState, hdata,
    hfin, htrail, hend, hcopied, hcount]

/-- The connection after `n` bytes, with the next one not acknowledged yet. -/
def oneTurnUnacked (n : ℕ) (b : UInt8) : RcvState :=
  { oneTurnState n with
    tp :=
      { (oneTurnState n).tp with
        rcvNxt := oneTurn.seqOf (n + 1)
        copiedSeq := oneTurn.seqOf (n + 1)
        iov := (oneTurnState n).tp.iov ++ [[b]]
        iovLen := n + 1
        received := n + 1 } }

/-- The acknowledgement opens the window again: nothing is charged. -/
theorem oneTurn_acked (n : ℕ) :
    rcvStep Collapse.keep (oneTurnUnacked n (oneTurn.byte n)) (.sendAck 0 1000#32) =
      some (oneTurnState (n + 1)) := by
  have hwin : oneTurn.seqOf n + 1000#32 - oneTurn.seqOf (n + 1) = 999#32 := by
    have hadd : oneTurn.seqOf n + 1000#32 = oneTurn.seqOf (n + 1000) := ofPos_add_ofNat 1000
    have hsub : oneTurn.seqOf (n + 1000) - oneTurn.seqOf (n + 1) =
        BitVec.ofNat 32 (n + 1000 - (n + 1)) := ofPos_sub (by omega)
    rw [hadd, hsub, show n + 1000 - (n + 1) = 999 by omega]
  simp [rcvStep, TcpRcv.tcpSelectWindow, TcpRcv.tcpReceiveWindow, oneTurnUnacked, oneTurnState,
    hwin, List.range_succ]
  decide

/-- The stream arrives byte by byte. -/
theorem oneTurn_reachable : ∀ n : ℕ,
    (rcvMachine Collapse.keep oneTurn.isn 1000#32 true 4000).ReachableWhere (carriedOk oneTurn)
      (oneTurnState n) := by
  intro n
  induction n with
  | zero => exact .init
  | succ n ih =>
      have hpiece : oneTurn.Carries (oneTurn.piece n 1 false) := oneTurn.carries_piece nofun nofun
      have heaten : rcvStep Collapse.keep (oneTurnState n)
          (.segment (oneTurn.piece n 1 false) slowChecks) =
            some (oneTurnUnacked n (oneTurn.byte n)) := by
        simp only [rcvStep]
        rw [oneTurn_eaten n (oneTurn.piece n 1 false) rfl rfl rfl rfl]
        rfl
      have hroom : carriedOk oneTurn (oneTurnState n)
          (.segment (oneTurn.piece n 1 false) slowChecks) :=
        ⟨hpiece, Nat.zero_le _, (by decide : 4000 < 2 ^ 31), rfl⟩
      exact (ih.step hroom heaten).step (a := RcvStep.sendAck 0 1000#32) trivial (oneTurn_acked n)

theorem oneTurn_out (n : ℕ) (b : UInt8) :
    (oneTurnUnacked n b).read ++ (oneTurnUnacked n b).tp.iov.flatten = oneTurn.bytes 0 n ++ [b] := by
  have hflat : ((List.range n).map fun k => [oneTurn.byte k]).flatten = oneTurn.bytes 0 n := by
    rw [PeerStream.bytes, ← List.range_eq_range']
    exact List.map_eq_flatMap.symm
  have hread : (oneTurnUnacked n b).read = [] := rfl
  have hiov : (oneTurnUnacked n b).tp.iov =
      ((List.range n).map fun k => [oneTurn.byte k]) ++ [[b]] := rfl
  rw [hread, List.nil_append, hiov, List.flatten_append, hflat, List.flatten_singleton]

/-- One turn of the sequence numbers later a duplicate of the first byte comes in and is taken for
the next one. -/
theorem stale_duplicate_delivered :
    ∃ s, (rcvMachine Collapse.keep oneTurn.isn 1000#32 true 4000).ReachableWhere (carriedOk oneTurn)
        s ∧ ¬ Reassembled oneTurn s := by
  have hpiece : oneTurn.Carries (oneTurn.piece 0 1 false) := oneTurn.carries_piece nofun nofun
  have hseq : (oneTurn.piece 0 1 false).seq = oneTurn.seqOf (2 ^ 32) := by
    show 0#32 + 0#32 = 0#32 + BitVec.ofNat 32 (2 ^ 32)
    decide
  generalize hturn : 2 ^ 32 = n at hseq
  refine ⟨oneTurnUnacked n (oneTurn.byte 0), ?_, ?_⟩
  case refine_1 =>
    have heaten : rcvStep Collapse.keep (oneTurnState n)
        (.segment (oneTurn.piece 0 1 false) slowChecks) =
          some (oneTurnUnacked n (oneTurn.byte 0)) := by
      simp only [rcvStep]
      rw [oneTurn_eaten n (oneTurn.piece 0 1 false) hseq rfl rfl rfl]
      rfl
    have hroom : carriedOk oneTurn (oneTurnState n)
        (.segment (oneTurn.piece 0 1 false) slowChecks) :=
      ⟨hpiece, Nat.zero_le _, (by decide : 4000 < 2 ^ 31), rfl⟩
    exact (oneTurn_reachable n).step hroom heaten
  case refine_2 =>
    rintro ⟨pos, _, hout⟩
    rw [oneTurn_out] at hout
    have hclip : oneTurn.clip pos = pos := PeerStream.clip_of_le nofun
    rw [hclip] at hout
    have hlength : pos = n + 1 := by
      have hcount := congrArg List.length hout
      rw [List.length_append, PeerStream.length_bytes, PeerStream.length_bytes] at hcount
      exact hcount.symm
    have hbytes : oneTurn.bytes 0 (n + 1) = oneTurn.bytes 0 n ++ [oneTurn.byte n] := by
      rw [← PeerStream.bytes_append, Nat.zero_add]
      rfl
    rw [hlength, hbytes] at hout
    have hsame : turnByte 0 = turnByte n :=
      List.singleton_inj.1 (List.append_cancel_left hout)
    rw [turnByte, turnByte, if_pos (Nat.two_pow_pos 32), ← hturn, if_neg (Nat.lt_irrefl _)] at hsame
    exact absurd hsame (by decide)

end IpAugenblick
