/-
# Transmit progress

`user_get_buffer` dequeues while at least 1448 bytes of `size_goal` are left.  A call whose
`size_goal` is that large takes at least one buffer that carries data, or empties the ring; a
call with a smaller one, which is what a peer with a small MSS gets without segmentation
offload, takes nothing and returns zero, and the loop of `user_on_transmission_opportunity`
stops.
-/

import IpAugenblick.Stack.WriteQueue

namespace IpAugenblick

open Lib

/-! ## States of a stream socket -/

/-- The guard of the runs in which `ipaugenblick_send_bulk` is given single buffers. -/
def singleOk (s : StreamState) : StreamStep → Prop
  | .sendBulk mbuf _ => s.mem.next mbuf = none
  | _ => True

namespace StreamState

variable {s t : StreamState} {c : SendpagesCall}

/-- What holds of a socket whether or not its allocations succeed. -/
structure SocketOk (s : StreamState) : Prop extends s.RingOk where
  seq_lt : s.writeSeq < 2 ^ 32

theorem writeSeq_sendpagesLoop {fuel : ℕ} {p : Option ℕ} {u : SendState}
    (h : u.writeSeq < 2 ^ 32) : (SendState.sendpagesLoop fuel u p).writeSeq < 2 ^ 32 := by
  induction fuel generalizing u p with
  | zero => exact h
  | succ fuel ih =>
      cases p with
      | none => exact h
      | some mbuf =>
          rw [SendState.sendpagesLoop]
          cases halloc : u.alloc with
          | none => exact h
          | some pair =>
              obtain ⟨skb, v⟩ := pair
              have hsame : v.writeSeq = u.writeSeq := by
                obtain ⟨-, rfl⟩ | ⟨header, headers, -, -, -, rfl⟩ := SendState.alloc_cases halloc <;>
                  rfl
              apply ih
              unfold SendState.addMbuf
              dsimp only
              split
              · exact Nat.mod_lt _ (by decide)
              · exact hsame ▸ h

/-- A call keeps the socket in order and leaves the rest of its ring. -/
theorem SocketOk.tcpSendpages (h : s.SocketOk) (c : SendpagesCall) :
    (s.tcpSendpages c).1.SocketOk ∧ Takes s (s.taken c) (s.tcpSendpages c).1 := by
  by_cases hc : Admitted c
  · have htakes := h.toRingOk.sendChain c
    rw [tcpSendpages_of_admitted hc, taken, if_pos hc]
    refine ⟨{ h.toRingOk.takes htakes with seq_lt := ?_ }, htakes⟩
    obtain ⟨-, heq⟩ | ⟨mem, first, txRing, hruns⟩ := h.toRingOk.sendChain_cases c
    · rw [heq]
      exact h.seq_lt
    · rw [hruns.state]
      exact writeSeq_sendpagesLoop h.seq_lt
  · rw [taken, if_neg hc]
    rcases tcpSendpages_of_not_admitted (s := s) hc with heq | ⟨err, heq⟩ <;> rw [heq] <;>
      exact ⟨h, takes_nothing⟩

theorem SocketOk.step {mem₀ : MbufMem} {writeSeq : ℕ} {a : StreamStep} (h : s.SocketOk)
    (hok : singleOk s a) (ht : (streamMachine mem₀ writeSeq).step s a = some t) : t.SocketOk := by
  cases a with
  | send mbuf length =>
      simp only [streamMachine] at ht
      split at ht
      next hnew =>
          obtain rfl := Option.some.inj ht
          obtain ⟨hframe, hnext⟩ := frame_send s.mem mbuf length
          refine ⟨?_, h.seq_lt⟩
          exact h.toRingOk.enqueue rfl hframe hnext hnew.1 hnew.2
      next => cases ht
  | sendBulk mbuf length =>
      simp only [streamMachine] at ht
      split at ht
      next hnew =>
          obtain rfl := Option.some.inj ht
          have hnext : (s.mem.setDataLen mbuf length).next mbuf = none := by
            rw [next_setDataLen]
            exact hok
          refine ⟨?_, h.seq_lt⟩
          exact h.toRingOk.enqueue rfl (fun p hp => MbufMem.modify_of_ne _ _ hp) hnext hnew.1 hnew.2
      next => cases ht
  | sendpages c =>
      obtain rfl := Option.some.inj ht
      obtain ⟨hsent, -⟩ := h.tcpSendpages c
      exact ⟨⟨hsent.nodup, hsent.inRange, hsent.single⟩, hsent.seq_lt⟩
  | other mbuf contents =>
      simp only [streamMachine] at ht
      split at ht
      next hnew =>
          obtain rfl := Option.some.inj ht
          refine ⟨?_, h.seq_lt⟩
          exact h.toRingOk.other rfl (fun p hp => MbufMem.modify_of_ne _ _ hp) hnew
      next => cases ht

theorem socketOk_of_reachable {mem : MbufMem} {writeSeq : ℕ}
    (hreach : (streamMachine mem writeSeq).ReachableWhere singleOk s) : s.SocketOk := by
  refine (streamMachine mem writeSeq).invariant_of_step ?_ ?_ hreach
  · exact ⟨⟨List.nodup_nil, nofun, nofun⟩, Nat.mod_lt _ (by decide)⟩
  · intro s a t h hok hstep
    exact h.step hok hstep

/-! ## One call -/

/-- An established socket without a pending error, and `tcp_send_mss` as it answers. -/
structure Served (c : SendpagesCall) : Prop where
  connected : c.connectError = none
  noError : c.error = none
  hasSocket : c.hasSocket = true
  mss : 1 ≤ c.mssNow
  goal : c.mssNow ≤ c.sizeGoal

theorem Served.admitted (h : Served c) : Admitted c :=
  ⟨h.connected, Nat.ne_of_gt h.mss, Nat.ne_of_gt (Nat.lt_of_lt_of_le h.mss h.goal), h.noError,
    h.hasSocket⟩

/-- `sk_stream_alloc_skb` does not fail in the call. -/
def AllocsSucceed (s : StreamState) (c : SendpagesCall) : Prop :=
  (s.taken c).length ≤ maxSkbFrags * c.headers.length

/-- The call queues a buffer and returns a positive count. -/
def Progresses (s : StreamState) (c : SendpagesCall) : Prop :=
  ∃ copied, (s.tcpSendpages c).2 = .ok copied ∧ 0 < copied ∧
    (s.tcpSendpages c).1.txRing.length < s.txRing.length ∧
    s.appended.length < (s.tcpSendpages c).1.appended.length

/-- A served call returns and appends the bytes of the buffers it takes. -/
theorem SocketOk.served (h : s.SocketOk) (hc : Served c) (halloc : s.AllocsSucceed c) :
    (s.tcpSendpages c).2 = .ok (totalLen s.mem (takenBufs s.mem c.sizeGoal s.txRing) : ℤ) ∧
      (s.tcpSendpages c).1.appended.length =
        s.appended.length + totalLen s.mem (takenBufs s.mem c.sizeGoal s.txRing) := by
  unfold AllocsSucceed taken at halloc
  rw [if_pos hc.admitted] at halloc
  rw [tcpSendpages_of_admitted hc.admitted]
  obtain ⟨hnone, heq⟩ | ⟨mem, first, txRing, hruns⟩ := h.toRingOk.sendChain_cases c
  · rw [hnone, heq]
    exact ⟨rfl, rfl⟩
  · obtain ⟨hfills, hcopied⟩ := hruns.fills h.seq_lt halloc
    have hpages := (List.append_nil _).symm.trans hfills.pages
    refine ⟨congrArg Except.ok hcopied, ?_⟩
    rw [hruns.state]
    dsimp only
    rw [flatMap_fragBytes hfills.cores hfills.queued, hpages, List.length_append,
      length_flatMap_data, totalLen_congr hruns.cores]

/-- The first buffer is taken as soon as the goal allows for one. -/
theorem takenBufs_cons_of_le {M : MbufMem} {copy : ℤ} {p : ℕ} {rest : List ℕ}
    (h : getBufferStep ≤ copy) :
    takenBufs M copy (p :: rest) = p :: takenBufs M (copy - (M.mbuf p).dataLen) rest := by
  rw [takenBufs, if_neg (not_lt.mpr h)]

/-- **One call makes progress exactly when the goal allows for a buffer.** -/
theorem SocketOk.progresses_iff (h : s.SocketOk) (hc : Served c) (halloc : s.AllocsSucceed c)
    {p : ℕ} {rest : List ℕ} (hring : s.txRing = p :: rest) (hbyte : 1 ≤ (s.mem.mbuf p).dataLen) :
    s.Progresses c ↔ getBufferStep ≤ c.sizeGoal := by
  obtain ⟨hreturned, happended⟩ := h.served hc halloc
  obtain ⟨-, htakes⟩ := h.tcpSendpages c
  have hrest := congrArg List.length htakes.ring
  rw [taken, if_pos hc.admitted, List.length_append] at hrest
  constructor
  · rintro ⟨copied, hcopied, hpos, -, -⟩
    by_contra hlow
    rw [hreturned, hring, takenBufs, if_pos (not_le.mp hlow)] at hcopied
    cases hcopied
    exact absurd hpos (lt_irrefl _)
  · intro hgoal
    rw [hring, takenBufs_cons_of_le hgoal] at hrest hreturned happended
    have hpos : 1 ≤ totalLen s.mem
        (p :: takenBufs s.mem (c.sizeGoal - (s.mem.mbuf p).dataLen) rest) := by
      rw [totalLen, total_cons]
      exact Nat.le_trans hbyte (Nat.le_add_right _ _)
    refine ⟨_, hreturned, by omega, ?_, by omega⟩
    rw [hring]
    simp only [List.length_cons] at hrest ⊢
    omega

/-! ## The loop of `user_on_transmission_opportunity` -/

/-- Why the loop stops. -/
inductive LoopEnd
  | /-- `sk_stream_wspace` is not positive. -/
    space
  | /-- `kernel_sendpage` returns 0 or less. -/
    sendpage

/-- The loop, with the send space and the call of each round; no end while there are rounds. -/
def sendpageLoop (s : StreamState) : List (ℤ × SendpagesCall) → StreamState × Option LoopEnd
  | [] => (s, none)
  | (wspace, c) :: rounds =>
      if wspace ≤ 0 then (s, some .space)
      else
        match s.tcpSendpages c with
        | (t, .error _) => (t, some .sendpage)
        | (t, .ok copied) =>
            if copied ≤ 0 then (t, some .sendpage) else sendpageLoop t rounds

/-- Every call of the loop is served, with a goal that allows for a buffer. -/
def RoundsOk (s : StreamState) : List (ℤ × SendpagesCall) → Prop
  | [] => True
  | (_, c) :: rounds =>
      Served c ∧ s.AllocsSucceed c ∧ getBufferStep ≤ c.sizeGoal ∧
        RoundsOk (s.tcpSendpages c).1 rounds

/-- A call that takes no byte takes everything. -/
theorem takenBufs_eq_of_totalLen {M : MbufMem} {copy : ℤ} {txRing : List ℕ}
    (hgoal : getBufferStep ≤ copy) (hzero : totalLen M (takenBufs M copy txRing) = 0) :
    takenBufs M copy txRing = txRing := by
  induction txRing generalizing copy with
  | nil => rfl
  | cons p rest ih =>
      rw [takenBufs_cons_of_le hgoal] at hzero ⊢
      rw [totalLen, total_cons] at hzero
      obtain ⟨hlen, hzero⟩ := Nat.add_eq_zero_iff.mp hzero
      rw [hlen, Nat.cast_zero, sub_zero] at hzero ⊢
      rw [ih hgoal hzero]

/-- **The loop stops only when the ring is empty or the send space is used up.** -/
theorem SocketOk.sendpageLoop (h : s.SocketOk) {rounds : List (ℤ × SendpagesCall)}
    (hrounds : s.RoundsOk rounds) (hend : (s.sendpageLoop rounds).2 = some .sendpage) :
    (s.sendpageLoop rounds).1.txRing = [] := by
  induction rounds generalizing s with
  | nil => cases hend
  | cons round rounds ih =>
      obtain ⟨wspace, c⟩ := round
      obtain ⟨hc, halloc, hgoal, hrest⟩ := hrounds
      obtain ⟨hnext, htakes⟩ := h.tcpSendpages c
      obtain ⟨hreturned, -⟩ := h.served hc halloc
      rw [StreamState.sendpageLoop] at hend ⊢
      split at hend
      next => cases hend
      next hspace =>
          rw [if_neg hspace]
          cases hcall : s.tcpSendpages c with
          | mk t returned =>
          rw [hcall] at hnext htakes hreturned hrest hend
          dsimp only at hreturned
          subst hreturned
          dsimp only at hend ⊢
          split at hend
          next hzero =>
              rw [if_pos hzero]
              have hring := htakes.ring
              rw [taken, if_pos hc.admitted, takenBufs_eq_of_totalLen hgoal (by omega)] at hring
              exact List.append_right_eq_self.mp hring
          next hpos =>
              rw [if_neg hpos]
              exact ih hnext hrest hend

end StreamState

/-- **Transmit progress.**  In every state of a stream socket, a served call on a ring whose first
buffer carries data queues a buffer and returns a positive count exactly when `size_goal` is at
least the step of `user_get_buffer`; and while all goals are, the loop of
`user_on_transmission_opportunity` stops only when the ring is empty or the send space is used
up. -/
theorem transmit_progress_iff {mem : MbufMem} {writeSeq : ℕ} {s : StreamState}
    (hreach : (streamMachine mem writeSeq).ReachableWhere singleOk s) :
    (∀ c p rest, StreamState.Served c → s.AllocsSucceed c → s.txRing = p :: rest →
      1 ≤ (s.mem.mbuf p).dataLen → (s.Progresses c ↔ getBufferStep ≤ c.sizeGoal)) ∧
    ∀ rounds, s.RoundsOk rounds → (s.sendpageLoop rounds).2 = some .sendpage →
      (s.sendpageLoop rounds).1.txRing = [] := by
  have hsocket := StreamState.socketOk_of_reachable hreach
  constructor
  · intro c p rest hc halloc hring hbyte
    exact hsocket.progresses_iff hc halloc hring hbyte
  · intro rounds hrounds hend
    exact hsocket.sendpageLoop hrounds hend

/-- One byte waits in `tx_ring`. -/
def oneByteWaiting : List StreamStep := [.send 1 1]

instance (s : StreamState) : ∀ a, Decidable (singleOk s a)
  | .sendBulk mbuf _ => inferInstanceAs (Decidable (s.mem.next mbuf = none))
  | .send _ _ | .sendpages _ | .other _ _ => .isTrue trivial

theorem transmit_progress_full_size :
    ∃ s, (streamMachine numberedBuffers 7).ReachableWhere singleOk s ∧ s.txRing = [1] ∧
      s.Progresses { mssNow := 1448, sizeGoal := 1448, headers := [0] } := by
  have hrun : (((streamMachine numberedBuffers 7).restrict singleOk).run oneByteWaiting).map
      (fun s => (s.txRing, (s.mem.mbuf 1).dataLen)) = some ([1], 1) := by decide +kernel
  obtain ⟨s, hs, hview⟩ := Option.map_eq_some_iff.mp hrun
  have hreach := Machine.reachableWhere_of_run _ hs
  rw [Prod.mk.injEq] at hview
  obtain ⟨hring, hlen⟩ := hview
  have hc : StreamState.Served { mssNow := 1448, sizeGoal := 1448, headers := [0] } :=
    ⟨rfl, rfl, rfl, by decide, by decide⟩
  have halloc : s.AllocsSucceed { mssNow := 1448, sizeGoal := 1448, headers := [0] } := by
    rw [StreamState.AllocsSucceed, StreamState.taken, if_pos hc.admitted, hring]
    have hprefix : takenBufs s.mem (1448 : ℕ) [1] <+: [1] := takenBufs_prefix
    exact Nat.le_trans hprefix.length_le (by decide)
  refine ⟨s, hreach, hring, ?_⟩
  exact ((transmit_progress_iff hreach).1 _ 1 [] hc halloc hring (Nat.le_of_eq hlen.symm)).mpr
    (by decide)

/-- A call to a peer with an MSS of 536. -/
def smallMssCall : SendpagesCall := { mssNow := 536, sizeGoal := 536, headers := [0] }

/-- The call returns zero with the byte still in the ring. -/
theorem small_mss_never_sends :
    ∃ s, (streamMachine numberedBuffers 7).run oneByteWaiting = some s ∧ s.txRing = [1] ∧
      (s.mem.mbuf 1).dataLen = 1 ∧ StreamState.Served smallMssCall ∧
      s.AllocsSucceed smallMssCall ∧ ¬ s.Progresses smallMssCall := by
  have hrun : ((streamMachine numberedBuffers 7).run oneByteWaiting).map
      (fun s => (s.txRing, (s.mem.mbuf 1).dataLen, (s.taken smallMssCall).length,
        (s.tcpSendpages smallMssCall).2.toOption)) = some ([1], 1, 0, some 0) := by decide +kernel
  obtain ⟨s, hs, hview⟩ := Option.map_eq_some_iff.mp hrun
  simp only [Prod.mk.injEq] at hview
  obtain ⟨hring, hlen, htaken, hreturned⟩ := hview
  refine ⟨s, hs, hring, hlen, ⟨rfl, rfl, rfl, by decide, by decide⟩, ?_, ?_⟩
  · rw [StreamState.AllocsSucceed, htaken]
    exact Nat.zero_le _
  · rintro ⟨copied, hcopied, hpos, -⟩
    rw [hcopied] at hreturned
    cases hreturned
    exact absurd hpos (lt_irrefl _)

end IpAugenblick
