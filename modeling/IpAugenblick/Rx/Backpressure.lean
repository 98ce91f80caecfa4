/-
# Receive back-pressure

A receiver that falls behind is to close the window: what has been received and
not yet moved to `rx_ring` is to be charged against `sk_rcvbuf`.  Bytes wait in
two places.  Those on `sk_receive_queue` are charged by `skb_set_owner_r`;
those that were eaten straight into `tp->ucopy.iov` are not charged at all, and
`tcp_data_queue` eats without asking for room.

Back-pressure rests on two facts: that every waiting byte is charged, and that
the waiting bytes never exceed `sk_rcvbuf`.  Both fail for this one reason, and
two conditions restore them.  Where no data is eaten, every waiting byte is
charged.  Where each segment arrives with room for it next to what is charged
and what lies in the iovec, the waiting bytes stay within `sk_rcvbuf`.
-/

import IpAugenblick.Stack.TcpInput

namespace IpAugenblick

open Lib

/-- Received bytes that have not been moved to `rx_ring`. -/
def TcpRcv.unread (tp : TcpRcv) : ℕ := tp.iovLen + queueBytes tp.receiveQueue

/-! ## Bytes of a queue -/

@[simp]
theorem queueBytes_nil : queueBytes [] = 0 := rfl

@[simp]
theorem queueBytes_cons (skb : RcvSkb) (queue : List RcvSkb) :
    queueBytes (skb :: queue) = skb.data.length + queueBytes queue := by
  simp [queueBytes]

@[simp]
theorem queueBytes_append (front back : List RcvSkb) :
    queueBytes (front ++ back) = queueBytes front + queueBytes back := by
  simp [queueBytes]

@[simp]
theorem queueBytes_reverse (queue : List RcvSkb) : queueBytes queue.reverse = queueBytes queue := by
  simp [queueBytes]

theorem queueBytes_sublist {small queue : List RcvSkb} (h : small.Sublist queue) :
    queueBytes small ≤ queueBytes queue := by
  induction h with
  | slnil => exact Nat.le_refl _
  | cons skb _ ih =>
      rw [queueBytes_cons]
      omega
  | cons_cons skb _ ih =>
      rw [queueBytes_cons, queueBytes_cons]
      omega

theorem queueBytes_le_truesize (queue : List RcvSkb) : queueBytes queue ≤ queueTruesize queue := by
  induction queue with
  | nil => exact Nat.le_refl _
  | cons skb queue ih =>
      have hskb := skb.data_le_truesize
      have hsum : queueTruesize (skb :: queue) = skb.truesize + queueTruesize queue := by
        simp [queueTruesize]
      rw [queueBytes_cons, hsum]
      omega

theorem queueBytes_dropCovered (skb : RcvSkb) (queue : List RcvSkb) :
    queueBytes (dropCovered skb queue) ≤ queueBytes queue := by
  induction queue with
  | nil => exact Nat.le_refl _
  | cons next rest ih =>
      unfold dropCovered
      split
      next => exact Nat.le_refl _
      next =>
        split
        next => exact Nat.le_refl _
        next =>
          rw [queueBytes_cons]
          omega

/-- A segment put out of order adds its own bytes at most. -/
theorem queueBytes_insertOfo (queue : List RcvSkb) (skb : RcvSkb) :
    queueBytes (insertOfo queue skb) ≤ queueBytes queue + skb.data.length := by
  unfold insertOfo
  dsimp only
  generalize hlater : (queue.reverse.takeWhile fun q => after q.seq skb.seq).reverse = later
  generalize hwalk : (queue.reverse.dropWhile fun q => after q.seq skb.seq) = walk
  have hsplit : walk.reverse ++ later = queue := by
    rw [← hlater, ← hwalk, ← List.reverse_append, List.takeWhile_append_dropWhile,
      List.reverse_reverse]
  have hdrop := queueBytes_dropCovered skb later
  subst hsplit
  cases walk with
  | nil =>
      simp only [List.reverse_nil, List.nil_append, queueBytes_cons]
      omega
  | cons skb1 earlier =>
      have hdrop1 := queueBytes_dropCovered skb (skb1 :: later)
      simp only [queueBytes_cons] at hdrop1
      dsimp only
      split
      next =>
        split
        next => exact Nat.le_add_right _ _
        next =>
          split
          all_goals
            simp only [queueBytes_append, queueBytes_reverse, queueBytes_cons]
            omega
      next =>
        simp only [queueBytes_append, queueBytes_reverse, queueBytes_cons]
        omega

/-! ## What a segment adds -/

/-- From `tp` to `tp'` nothing was eaten and at most `extra` bytes were queued. -/
structure Queued (tp tp' : TcpRcv) (extra : ℕ) : Prop where
  iov : tp'.iovLen = tp.iovLen
  held : queueBytes tp'.receiveQueue + queueBytes tp'.outOfOrderQueue ≤
    queueBytes tp.receiveQueue + queueBytes tp.outOfOrderQueue + extra
  rcvbuf : tp.skRcvbuf ≤ tp'.skRcvbuf

namespace Queued

variable {tp tp' tp'' : TcpRcv} {m n : ℕ} {skb : RcvSkb} {mem : RcvMem} {C : Collapse}

theorem refl (tp : TcpRcv) : Queued tp tp 0 := ⟨rfl, Nat.le_refl _, Nat.le_refl _⟩

theorem trans (h : Queued tp tp' m) (h' : Queued tp' tp'' n) : Queued tp tp'' (m + n) where
  iov := h'.iov.trans h.iov
  held := by
    have := h.held
    have := h'.held
    omega
  rcvbuf := Nat.le_trans h.rcvbuf h'.rcvbuf

theorem mono (h : Queued tp tp' m) (hle : m ≤ n) : Queued tp tp' n :=
  ⟨h.iov, Nat.le_trans h.held (Nat.add_le_add_left hle _), h.rcvbuf⟩

theorem tcpQueueRcv (tp : TcpRcv) (skb : RcvSkb) :
    Queued tp (tp.tcpQueueRcv skb) skb.data.length := by
  refine ⟨rfl, ?_, Nat.le_refl _⟩
  simp only [TcpRcv.tcpQueueRcv, TcpRcv.advance, queueBytes_append, queueBytes_cons,
    queueBytes_nil]
  omega

theorem tcpFastPathCheck (tp : TcpRcv) : Queued tp tp.tcpFastPathCheck 0 := by
  unfold TcpRcv.tcpFastPathCheck
  split
  next => exact ⟨rfl, Nat.le_refl _, Nat.le_refl _⟩
  next => exact refl tp

/-- `tcp_ofo_queue` moves bytes from one queue to the other or drops them. -/
theorem tcpOfoQueue : ∀ (queue : List RcvSkb) (tp : TcpRcv),
    Queued { tp with outOfOrderQueue := queue } (tp.tcpOfoQueue queue) 0 := by
  intro queue
  induction queue with
  | nil => exact fun tp => ⟨rfl, Nat.le_refl _, Nat.le_refl _⟩
  | cons skb rest ih =>
      intro tp
      have hmoved : Queued { tp with outOfOrderQueue := skb :: rest }
          { tp.tcpQueueRcv skb with outOfOrderQueue := rest } 0 := by
        refine ⟨rfl, ?_, Nat.le_refl _⟩
        simp only [TcpRcv.tcpQueueRcv, TcpRcv.advance, queueBytes_append, queueBytes_cons,
          queueBytes_nil]
        omega
      unfold TcpRcv.tcpOfoQueue
      split
      next => exact ⟨rfl, Nat.le_refl _, Nat.le_refl _⟩
      next =>
        split
        next =>
          have hless : Queued { tp with outOfOrderQueue := skb :: rest }
              { tp with outOfOrderQueue := rest } 0 := by
            refine ⟨rfl, ?_, Nat.le_refl _⟩
            simp only [queueBytes_cons]
            omega
          exact hless.trans (ih tp)
        next =>
          split
          next =>
            refine hmoved.trans (n := 0) ⟨rfl, ?_, Nat.le_refl _⟩
            simp [TcpRcv.tcpFin]
          next => exact hmoved.trans (ih (tp.tcpQueueRcv skb))

theorem dataTaken (tp : TcpRcv) (skb : RcvSkb) : Queued tp (tp.dataTaken skb) 0 := by
  have hfin : Queued tp (if skb.fin then tp.tcpFin else tp) 0 := by
    split
    next =>
      refine ⟨rfl, ?_, Nat.le_refl _⟩
      simp [TcpRcv.tcpFin]
    next => exact refl tp
  unfold TcpRcv.dataTaken
  generalize (if skb.fin then tp.tcpFin else tp) = finished at hfin ⊢
  refine (hfin.trans (m := 0) (n := 0) ?_).trans (tcpFastPathCheck _)
  split
  next => exact refl _
  next => exact tcpOfoQueue _ _

/-- Pruning never adds bytes, and the clamp never lowers `sk_rcvbuf`. -/
theorem tcpPruneQueue (tp : TcpRcv) (mem : RcvMem) :
    Queued tp (tp.tcpPruneQueue C mem).2 0 := by
  have hreceive := C.receive_le tp.copiedSeq tp.rcvNxt tp.receiveQueue
  have hofo := C.outOfOrder_le tp.outOfOrderQueue
  have hclamp : ∃ skRcvbuf, tp.skRcvbuf ≤ skRcvbuf ∧
      (if tp.skRcvbuf ≤ tp.skRmemAlloc then tp.tcpClampWindow mem.rmemMax else tp) =
        { tp with skRcvbuf } := by
    split
    next hfull =>
      unfold TcpRcv.tcpClampWindow
      split
      next => exact ⟨_, Nat.le_refl _, rfl⟩
      next =>
        split
        next hlt => exact ⟨_, Nat.le_min.2 ⟨hfull, Nat.le_of_lt hlt⟩, rfl⟩
        next => exact ⟨_, Nat.le_refl _, rfl⟩
    next => exact ⟨_, Nat.le_refl _, rfl⟩
  obtain ⟨skRcvbuf, hle, heq⟩ := hclamp
  unfold TcpRcv.tcpPruneQueue
  rw [heq]
  dsimp only
  split
  next => exact ⟨rfl, by dsimp only; omega, hle⟩
  next =>
    split
    all_goals exact ⟨rfl, by simp only [queueBytes_nil]; omega, hle⟩

theorem tcpTryRmemSchedule (tp : TcpRcv) (mem : RcvMem) :
    Queued tp (tp.tcpTryRmemSchedule C mem).2 0 := by
  have hprune : Queued tp (tp.tcpPruneQueue C mem).2 0 := tcpPruneQueue tp mem
  unfold TcpRcv.tcpTryRmemSchedule
  split
  next => exact refl tp
  next =>
    split
    next pruned heq =>
      rw [heq] at hprune
      exact hprune
    next pruned heq =>
      rw [heq] at hprune
      split
      next => exact hprune
      next =>
        split
        next => exact hprune
        next =>
          have hheld := hprune.held
          refine ⟨hprune.iov, ?_, hprune.rcvbuf⟩
          simp only [queueBytes_nil] at hheld ⊢
          omega

theorem queueAndOut (tp : TcpRcv) (skb : RcvSkb) (mem : RcvMem) :
    Queued tp (tp.queueAndOut C skb mem) skb.data.length := by
  have hroom : Queued tp (tp.tcpTryRmemSchedule C mem).2 0 := tcpTryRmemSchedule tp mem
  unfold TcpRcv.queueAndOut
  split
  next tp' heq =>
    rw [heq] at hroom
    exact hroom.mono (Nat.zero_le _)
  next tp' heq =>
    rw [heq] at hroom
    exact ((hroom.trans (tcpQueueRcv tp' skb)).trans (dataTaken _ skb)).mono (by omega)

theorem tcpDataQueueOfo (tp : TcpRcv) (skb : RcvSkb) (mem : RcvMem) :
    Queued tp (tp.tcpDataQueueOfo C skb mem) skb.data.length := by
  have hroom : Queued tp (tp.tcpTryRmemSchedule C mem).2 0 := tcpTryRmemSchedule tp mem
  unfold TcpRcv.tcpDataQueueOfo
  split
  next tp' heq =>
    rw [heq] at hroom
    exact hroom.mono (Nat.zero_le _)
  next tp' heq =>
    rw [heq] at hroom
    have hput : ∀ queue, queueBytes queue ≤ queueBytes tp'.outOfOrderQueue + skb.data.length →
        Queued tp { tp' with predFlags := false, outOfOrderQueue := queue } skb.data.length := by
      intro queue hqueue
      have hheld := hroom.held
      refine ⟨hroom.iov, ?_, hroom.rcvbuf⟩
      dsimp only at hheld ⊢
      omega
    dsimp only
    split
    next hlast =>
      refine hput _ ?_
      simp
    next =>
      split
      next =>
        refine hput _ ?_
        simp
      next => exact hput _ (queueBytes_insertOfo _ skb)

end Queued

/-- From `tp` to `tp'` a segment of `len` bytes was eaten: it was next in order and the reader had
caught up. -/
structure Eaten (tp tp' : TcpRcv) (skb : RcvSkb) : Prop where
  next : skb.seq = tp.rcvNxt
  caughtUp : tp.copiedSeq = tp.rcvNxt
  iov : tp'.iovLen = tp.iovLen + skb.data.length
  held : queueBytes tp'.receiveQueue + queueBytes tp'.outOfOrderQueue ≤
    queueBytes tp.receiveQueue + queueBytes tp.outOfOrderQueue
  rcvbuf : tp.skRcvbuf ≤ tp'.skRcvbuf

section Segment

variable {tp : TcpRcv} {skb : RcvSkb} {C : Collapse}

/-- `tcp_data_queue` queues a segment or eats it. -/
theorem tcpDataQueue_cases (tp : TcpRcv) (skb : RcvSkb) (mem : RcvMem) :
    Queued tp (tp.tcpDataQueue C skb mem) skb.data.length ∨
      Eaten tp (tp.tcpDataQueue C skb mem) skb := by
  have hsame : Queued tp tp skb.data.length := (Queued.refl tp).mono (Nat.zero_le _)
  unfold TcpRcv.tcpDataQueue
  split
  next => exact .inl hsame
  next =>
    split
    next hnext =>
      split
      next => exact .inl hsame
      next =>
        split
        next hcaught =>
          right
          obtain ⟨iov, hcopy⟩ := tp.copyInOrder_eq skb
          have htaken := Queued.dataTaken ((tp.copyInOrder skb).advance skb.endSeq) skb
          rw [hcopy] at htaken ⊢
          exact ⟨hnext, hcaught, htaken.iov, htaken.held, htaken.rcvbuf⟩
        next => exact .inl (Queued.queueAndOut tp skb mem)
    next =>
      split
      next => exact .inl hsame
      next =>
        split
        next => exact .inl hsame
        next =>
          split
          next =>
            split
            next => exact .inl hsame
            next => exact .inl (Queued.queueAndOut tp skb mem)
          next => exact .inl (Queued.tcpDataQueueOfo tp skb mem)

/-- `tcp_rcv_established` queues a segment or eats it. -/
theorem tcpRcvEstablished_cases (tp : TcpRcv) (skb : RcvSkb) (checks : SegmentChecks) :
    Queued tp (tp.tcpRcvEstablished C skb checks) skb.data.length ∨
      Eaten tp (tp.tcpRcvEstablished C skb checks) skb := by
  have hsame : Queued tp tp skb.data.length := (Queued.refl tp).mono (Nat.zero_le _)
  have hstep5 : Queued tp (tp.step5 C skb checks) skb.data.length ∨
      Eaten tp (tp.step5 C skb checks) skb := by
    unfold TcpRcv.step5
    split
    next => exact tcpDataQueue_cases tp skb checks.mem
    next => exact .inl hsame
  unfold TcpRcv.tcpRcvEstablished
  split
  next hfast =>
    simp only [Bool.and_eq_true, beq_iff_eq] at hfast
    split
    next => exact .inl hsame
    next =>
      split
      next hcaught =>
        simp only [Bool.and_eq_true, beq_iff_eq] at hcaught
        right
        obtain ⟨iov, hcopy⟩ := tp.copyInOrder_eq skb
        rw [hcopy]
        exact ⟨hfast.2, hcaught.1.1, rfl, Nat.le_refl _, Nat.le_refl _⟩
      next =>
        split
        next => exact .inl hsame
        next =>
          split
          next => exact hstep5
          next => exact .inl (Queued.tcpQueueRcv tp skb)
  next =>
    split
    next => exact hstep5
    next => exact .inl hsame

end Segment

/-! ## Reading -/

/-- `tcp_recvmsg` empties the iovec and never adds to the queues. -/
theorem tcpRecvmsg_eq (tp : TcpRcv) : ∃ copiedSeq receiveQueue,
    tp.tcpRecvmsg.2.2 =
      { tp with copiedSeq, receiveQueue, iov := [], iovLen := 0, ucopyLen := tp.skRcvbuf } ∧
    receiveQueue.Sublist tp.receiveQueue := by
  unfold TcpRcv.tcpRecvmsg
  split
  next => exact ⟨_, _, rfl, .refl _⟩
  next =>
    obtain ⟨iov, iovLen, copiedSeq, receiveQueue, heq, hsub⟩ :=
      TcpRcv.recvLoop_eq tp.receiveQueue.length tp
    exact ⟨copiedSeq, receiveQueue, by rw [heq], hsub⟩

/-- A property of the receive side that reading keeps is kept by the whole callback. -/
theorem userDataAvailableCbk_keeps {P : TcpRcv → Prop}
    (hread : ∀ tp : TcpRcv, P tp → P tp.tcpRecvmsg.2.2) :
    ∀ (ringFree : ℕ) (s : RcvState), P s.tp → P (userDataAvailableCbk ringFree s).tp := by
  intro ringFree
  induction ringFree with
  | zero => exact fun _ h => h
  | succ ringFree ih =>
      intro s h
      unfold userDataAvailableCbk
      split
      next => exact hread _ h
      next => exact ih _ (hread _ h)

/-! ## Runs -/

/-- No data is eaten: a segment that is next in order finds bytes before it still queued. -/
def chargedOk (s : RcvState) : RcvStep → Prop
  | .segment skb _ =>
      skb.seq = s.tp.rcvNxt → s.tp.copiedSeq = s.tp.rcvNxt → skb.data = []
  | _ => True

/-- A segment arrives with room for it next to what is charged and what the iovec holds. -/
def fitsOk (s : RcvState) : RcvStep → Prop
  | .segment skb _ => s.tp.iovLen + s.tp.skRmemAlloc + skb.truesize ≤ s.tp.skRcvbuf
  | _ => True

section Runs

variable {C : Collapse} {s t : RcvState} {a : RcvStep}

/-- A property of the receive side that segments and the other steps keep is kept by a step. -/
theorem rcvStep_keeps {P : TcpRcv → Prop} (h : P s.tp)
    (hsegment : ∀ skb checks, a = .segment skb checks → P (s.tp.tcpRcvEstablished C skb checks))
    (hread : ∀ tp : TcpRcv, P tp → P tp.tcpRecvmsg.2.2)
    (hother : ∀ tp : TcpRcv, tp.iovLen = s.tp.iovLen → tp.receiveQueue = s.tp.receiveQueue →
      tp.outOfOrderQueue = s.tp.outOfOrderQueue → s.tp.skRcvbuf ≤ tp.skRcvbuf → P tp)
    (hstep : rcvStep C s a = some t) : P t.tp := by
  cases a with
  | segment skb checks =>
      obtain rfl := Option.some.inj hstep
      exact hsegment skb checks rfl
  | recvmsg =>
      obtain rfl := Option.some.inj hstep
      exact hread _ h
  | dataAvailable =>
      obtain rfl := Option.some.inj hstep
      exact userDataAvailableCbk_keeps hread _ _ h
  | clientRead =>
      simp only [rcvStep, Option.ite_none_right_eq_some, Option.some.injEq] at hstep
      obtain ⟨_, rfl⟩ := hstep
      exact h
  | sendAck rcvWscale newWin =>
      obtain rfl := Option.some.inj hstep
      exact hother _ rfl rfl rfl (Nat.le_refl _)
  | peerWindow =>
      obtain rfl := Option.some.inj hstep
      dsimp only
      unfold TcpRcv.tcpFastPathCheck
      split
      next => exact hother _ rfl rfl rfl (Nat.le_refl _)
      next => exact hother _ rfl rfl rfl (Nat.le_refl _)
  | growRcvbuf skRcvbuf =>
      simp only [rcvStep, Option.ite_none_right_eq_some, Option.some.injEq] at hstep
      obtain ⟨hlt, rfl⟩ := hstep
      exact hother _ rfl rfl rfl (Nat.le_of_lt hlt)

/-- Where nothing is eaten the iovec is empty between two steps. -/
theorem iovLen_step (h : s.tp.iovLen = 0) (hok : chargedOk s a)
    (hstep : rcvStep C s a = some t) : t.tp.iovLen = 0 := by
  refine rcvStep_keeps (P := fun tp => tp.iovLen = 0) h ?_ ?_ ?_ hstep
  case refine_1 =>
    rintro skb checks rfl
    rcases tcpRcvEstablished_cases (C := C) s.tp skb checks with hqueued | heaten
    next => exact hqueued.iov.trans h
    next =>
      have hnone := hok heaten.next heaten.caughtUp
      rw [heaten.iov, h, hnone]
      rfl
  case refine_2 =>
    intro tp _
    obtain ⟨copiedSeq, receiveQueue, heq, _⟩ := tcpRecvmsg_eq tp
    rw [heq]
  case refine_3 => exact fun tp hiov _ _ _ => hiov.trans h

/-- What waits anywhere on the receive side is within `sk_rcvbuf`. -/
def WithinRcvbuf (tp : TcpRcv) : Prop :=
  tp.iovLen + queueBytes tp.receiveQueue + queueBytes tp.outOfOrderQueue ≤ tp.skRcvbuf

theorem withinRcvbuf_step (h : WithinRcvbuf s.tp) (hok : fitsOk s a)
    (hstep : rcvStep C s a = some t) : WithinRcvbuf t.tp := by
  refine rcvStep_keeps h ?_ ?_ ?_ hstep
  case refine_1 =>
    rintro skb checks rfl
    have hroom : s.tp.iovLen + s.tp.skRmemAlloc + skb.truesize ≤ s.tp.skRcvbuf := hok
    have hdata := skb.data_le_truesize
    have hreceive := queueBytes_le_truesize s.tp.receiveQueue
    have hofo := queueBytes_le_truesize s.tp.outOfOrderQueue
    unfold TcpRcv.skRmemAlloc at hroom
    unfold WithinRcvbuf
    rcases tcpRcvEstablished_cases (C := C) s.tp skb checks with hqueued | heaten
    next =>
      have hiov := hqueued.iov
      have hheld := hqueued.held
      have hbuf := hqueued.rcvbuf
      omega
    next =>
      have hiov := heaten.iov
      have hheld := heaten.held
      have hbuf := heaten.rcvbuf
      omega
  case refine_2 =>
    intro tp htp
    obtain ⟨copiedSeq, receiveQueue, heq, hsub⟩ := tcpRecvmsg_eq tp
    have hless := queueBytes_sublist hsub
    rw [heq]
    unfold WithinRcvbuf at htp ⊢
    dsimp only
    omega
  case refine_3 =>
    intro tp hiov hreceive hofo hbuf
    unfold WithinRcvbuf at h ⊢
    rw [hiov, hreceive, hofo]
    exact Nat.le_trans h hbuf

/-- **When back-pressure holds.**  In the runs that eat no data every unread byte is charged, and
in the runs whose segments all find room the unread bytes stay within `sk_rcvbuf`. -/
theorem unread_bytes_bounded {isn : SeqNum} {rcvWnd : BitVec 32} {predFlags : Bool}
    {skRcvbuf : ℕ} :
    ((rcvMachine C isn rcvWnd predFlags skRcvbuf).ReachableWhere chargedOk s →
      s.tp.unread ≤ s.tp.skRmemAlloc) ∧
    ((rcvMachine C isn rcvWnd predFlags skRcvbuf).ReachableWhere fitsOk s →
      s.tp.unread ≤ s.tp.skRcvbuf) := by
  refine ⟨fun hreach => ?_, fun hreach => ?_⟩
  · have hempty : s.tp.iovLen = 0 := by
      refine @Machine.invariant_of_step _ _ (rcvMachine C isn rcvWnd predFlags skRcvbuf) chargedOk
        (fun s => s.tp.iovLen = 0) rfl ?_ s hreach
      intro s a t h hok hstep
      exact iovLen_step h hok hstep
    have hqueue := queueBytes_le_truesize s.tp.receiveQueue
    unfold TcpRcv.unread TcpRcv.skRmemAlloc
    omega
  · have hinv : WithinRcvbuf s.tp := by
      refine @Machine.invariant_of_step _ _ (rcvMachine C isn rcvWnd predFlags skRcvbuf) fitsOk
        (fun s => WithinRcvbuf s.tp) (Nat.zero_le _) ?_ s hreach
      intro s a t h hok hstep
      exact withinRcvbuf_step h hok hstep
    unfold WithinRcvbuf at hinv
    unfold TcpRcv.unread
    omega

end Runs

def zeroSkb (off len : ℕ) : RcvSkb where
  seq := BitVec.ofNat 32 off
  data := List.replicate len 0
  fin := false
  trailer := []
  truesize := len + 310
  off
  data_le_truesize := by simp

/-- First half: the byte before the window (as in a keep-alive) keeps a segment from being eaten,
and what is next in order then finds it unread; both wait on the receive queue, charged.  Second
half: a gap is filled, and all of it fits. -/
theorem unread_bytes_bounded_gap :
    (∃ s, (rcvMachine Collapse.keep 1 1000 false 2304).ReachableWhere chargedOk s ∧
      queueBytes s.tp.receiveQueue = 900 ∧ s.tp.unread = 900 ∧ s.tp.unread ≤ s.tp.skRmemAlloc) ∧
    (∃ s, (rcvMachine Collapse.keep 0 1000 false 2304).ReachableWhere fitsOk s ∧
      s.tp.unread = 900 ∧ s.tp.unread ≤ s.tp.skRcvbuf) := by
  have hgap : fitsOk (establishedState 0 1000 false 2304)
      (.segment (zeroSkb 500 400) slowChecks) := by
    unfold fitsOk
    decide +kernel
  refine ⟨?_, ?_⟩
  · have hrun : (rcvMachine Collapse.keep 1 1000 false 2304).ReachableWhere chargedOk _ :=
      Machine.ReachableWhere.init
        |>.step (a := RcvStep.segment (zeroSkb 0 500) slowChecks)
          (fun h => absurd h (by decide)) rfl
        |>.step (a := RcvStep.segment (zeroSkb 500 400) slowChecks)
          (fun _ h => absurd h (by decide +kernel)) rfl
    exact ⟨_, hrun, by decide +kernel, by decide +kernel, unread_bytes_bounded.1 hrun⟩
  · have hrun : (rcvMachine Collapse.keep 0 1000 false 2304).ReachableWhere fitsOk _ :=
      Machine.ReachableWhere.init
        |>.step (a := RcvStep.segment (zeroSkb 500 400) slowChecks) hgap rfl
        |>.step (a := RcvStep.segment (zeroSkb 0 500) slowChecks)
          (by unfold fitsOk; decide +kernel) rfl
    exact ⟨_, hrun, by decide +kernel, unread_bytes_bounded.2 hrun⟩

/-- Five segments of a burst.  Each is acknowledged with the window 1000: nothing is charged, so
`tcp_space` is 1152 of the 2304, and `__tcp_select_window` (`rcv_mss` is 500) keeps an offer that
is within one `rcv_mss` of it. -/
def burstSteps : List RcvStep :=
  (List.range 5).flatMap fun k =>
    [.segment (zeroSkb (500 * k) 500) slowChecks, .sendAck 0 1000]

/-- The burst comes in before the service reads: 2500 bytes wait, none of them is charged and the
window is as open as it was. -/
theorem burst_overruns_rcvbuf :
    ∃ s, (rcvMachine Collapse.keep 0 1000 false 2304).run burstSteps = some s ∧
      s.tp.skRcvbuf = 2304 ∧ s.tp.unread = 2500 ∧ s.tp.skRmemAlloc = 0 ∧
      s.tp.tcpReceiveWindow = 1000 := by
  have hrun : ((rcvMachine Collapse.keep 0 1000 false 2304).run burstSteps).map
      (fun s => (s.tp.skRcvbuf, s.tp.unread, s.tp.skRmemAlloc, s.tp.tcpReceiveWindow)) =
        some (2304, 2500, 0, 1000) := by decide +kernel
  obtain ⟨s, hs, heq⟩ := Option.map_eq_some_iff.1 hrun
  simp only [Prod.mk.injEq] at heq
  exact ⟨s, hs, heq⟩

end IpAugenblick
