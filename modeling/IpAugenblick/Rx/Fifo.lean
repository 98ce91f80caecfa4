/-
# The two users of `rx_ring`

The service alone fills `rx_ring` and the client alone empties it, each of them
with a view of the ring that the other may outdate.  The client's
`ipaugenblick_dequeue_rx_buf` moves bursts into its local cache and still hands
out the chains in their order.  The service's `user_data_available_cbk` reads
the free count once and trusts it for the whole loop, which is sound because
nobody else can use up the room.
-/

import IpAugenblick.Lib.Machine
import IpAugenblick.Rx.Slot

namespace IpAugenblick

open Lib

variable {α : Type}

/-! ## The client: one dequeue -/

/-- A client inside `ipaugenblick_dequeue_rx_buf` gets from one access to a later one while the
service adds the listed chains. -/
inductive DequeueRun : Slot α → DequeuePc α → List α → Slot α → DequeuePc α → Prop
  | /-- Nothing has happened yet. -/
    refl (s : Slot α) (pc : DequeuePc α) : DequeueRun s pc [] s pc
  | /-- The client makes its next access. -/
    access {s s' : Slot α} {pc pc' : DequeuePc α} {added : List α}
      (prior : DequeueRun s pc added s' pc') :
      DequeueRun s pc added (s'.dequeueStep pc').1 (s'.dequeueStep pc').2
  | /-- The service enqueues a chain. -/
    submit {s s' : Slot α} {pc pc' : DequeuePc α} {added : List α}
      (prior : DequeueRun s pc added s' pc') (x : α) (room : 0 < s'.ring.freeCount) :
      DequeueRun s pc (added ++ [x])
        { s' with ring := (s'.ring.enqueueBulk 1 [x]).2 } pc'
  | /-- The service marks the connection readable. -/
    mark {s s' : Slot α} {pc pc' : DequeuePc α} {added : List α}
      (prior : DequeueRun s pc added s' pc') :
      DequeueRun s pc added { s' with readReadyToApp := true } pc'

/-- What is stored for the client, in order. -/
def Slot.stored (s : Slot α) : List α := s.cache.items ++ s.ring.items

/-- The call has looked at the ring, and at that moment cache and ring were empty. -/
def LookedEmpty (s : Slot α) (added : List α) (s' : Slot α) (pc' : DequeuePc α) : Prop :=
  ∃ before after looked, added = before ++ after ∧
    DequeueRun s .start before looked (.count none) ∧ looked.stored = [] ∧
    DequeueRun looked (.count none) after s' pc'

/-- What holds of a call under way, access by access. -/
def DequeueInv (s : Slot α) (added : List α) (s' : Slot α) : DequeuePc α → Prop
  | .start => s'.stored = s.stored ++ added
  | .clear mbuf => mbuf.toList ++ s'.stored = s.stored ++ added ∧
      (mbuf = none → s'.cache.items = [])
  | .count mbuf => mbuf.toList ++ s'.stored = s.stored ++ added ∧
      (mbuf = none → s'.cache.items = [])
  | .burst mbuf => mbuf.toList ++ s'.stored = s.stored ++ added ∧
      (mbuf = none → s'.cache.items = []) ∧ s'.ring.items ≠ []
  | .again mbuf => mbuf.toList ++ s'.stored = s.stored ++ added ∧
      (mbuf = none → s'.cache.items = [] → LookedEmpty s added s' (.again mbuf))
  | .kick mbuf => mbuf.toList ++ s'.stored = s.stored ++ added ∧
      (mbuf = none → LookedEmpty s added s' (.kick mbuf))

/-- The burst fits the cache and keeps the order. -/
theorem stored_burst (s : Slot α) (mbuf : Option α) :
    (s.dequeueStep (.burst mbuf)).1.stored = s.stored := by
  have hfit : (s.ring.dequeueBurst
      (if maxPktBurst < s.cache.freeCount then maxPktBurst else s.cache.freeCount)).1.length ≤
        s.cache.freeCount := by
    rw [Ring.dequeueBurst_fst, List.length_take]
    split <;> omega
  simp only [Slot.dequeueStep, Slot.stored]
  rw [Ring.items_enqueueBurst _ hfit, Ring.dequeueBurst_fst, Ring.items_dequeueBurst,
    List.append_assoc, List.take_append_drop]

/-- After a burst from a ring that holds something, the cache holds something. -/
theorem cache_burst_ne_nil (s : Slot α) (mbuf : Option α) (hcache : s.cache.items = [])
    (hring : s.ring.items ≠ []) : (s.dequeueStep (.burst mbuf)).1.cache.items ≠ [] := by
  have hfree : s.cache.freeCount = 63 := by
    rw [Ring.freeCount, hcache]
    rfl
  obtain ⟨x, xs, hitems⟩ := List.exists_cons_of_ne_nil hring
  simp [Slot.dequeueStep, hfree, Ring.enqueueBurst, hcache, hitems, maxPktBurst]

section Dequeue

variable {s s' : Slot α} {pc : DequeuePc α} {added : List α}

theorem LookedEmpty.access (h : LookedEmpty s added s' pc) :
    LookedEmpty s added (s'.dequeueStep pc).1 (s'.dequeueStep pc).2 := by
  obtain ⟨before, after, looked, hadded, hrun, hempty, hrest⟩ := h
  exact ⟨before, after, looked, hadded, hrun, hempty, hrest.access⟩

theorem LookedEmpty.submit (h : LookedEmpty s added s' pc) (x : α)
    (room : 0 < s'.ring.freeCount) :
    LookedEmpty s (added ++ [x]) { s' with ring := (s'.ring.enqueueBulk 1 [x]).2 } pc := by
  obtain ⟨before, after, looked, hadded, hrun, hempty, hrest⟩ := h
  refine ⟨before, after ++ [x], looked, ?_, hrun, hempty, hrest.submit x room⟩
  rw [hadded, List.append_assoc]

theorem LookedEmpty.mark (h : LookedEmpty s added s' pc) :
    LookedEmpty s added { s' with readReadyToApp := true } pc := by
  obtain ⟨before, after, looked, hadded, hrun, hempty, hrest⟩ := h
  exact ⟨before, after, looked, hadded, hrun, hempty, hrest.mark⟩

/-- The next access of the client. -/
theorem DequeueInv.access (hrun : DequeueRun s .start added s' pc) (h : DequeueInv s added s' pc) :
    DequeueInv s added (s'.dequeueStep pc).1 (s'.dequeueStep pc).2 := by
  cases pc with
  | start =>
      cases hfirst : s'.cache.dequeue with
      | none =>
          have hcache := (Ring.dequeue_eq_none_iff _).1 hfirst
          simp only [Slot.dequeueStep, hfirst]
          exact ⟨h, fun _ => hcache⟩
      | some pair =>
          obtain ⟨mbuf, cache⟩ := pair
          have hcache := (Ring.dequeue_eq_some_iff _ _ _).1 hfirst
          simp only [Slot.dequeueStep, hfirst]
          refine ⟨?_, fun hnone => by cases hnone⟩
          have hstored : s'.stored = s.stored ++ added := h
          rw [← hstored, Slot.stored, Slot.stored, hcache]
          rfl
  | clear mbuf => exact h
  | count mbuf =>
      by_cases hring : 0 < s'.ring.count
      · simp only [Slot.dequeueStep, if_pos hring]
        exact ⟨h.1, h.2, List.length_pos_iff.1 hring⟩
      · have hnone : s'.ring.items = [] :=
          List.length_eq_zero_iff.1 (Nat.eq_zero_of_not_pos hring)
        have hstep : s'.dequeueStep (.count mbuf) = (s', .again mbuf) := by
          simp only [Slot.dequeueStep, if_neg hring]
        rw [hstep]
        refine ⟨h.1, fun hmbuf hcache => ?_⟩
        subst hmbuf
        -- this is the moment of the look
        refine ⟨added, [], s', (List.append_nil added).symm, hrun, ?_, ?_⟩
        · rw [Slot.stored, hcache, hnone]
          rfl
        · have hlook := (DequeueRun.refl s' (.count none)).access
          rwa [hstep] at hlook
  | burst mbuf =>
      refine ⟨?_, fun hmbuf hcache => ?_⟩
      · rw [stored_burst]
        exact h.1
      · exact absurd hcache (cache_burst_ne_nil s' mbuf (h.2.1 hmbuf) h.2.2)
  | again mbuf =>
      cases mbuf with
      | some mbuf => exact ⟨h.1, fun hnone => by cases hnone⟩
      | none =>
          cases hlast : s'.cache.dequeue with
          | none =>
              have hcache := (Ring.dequeue_eq_none_iff _).1 hlast
              have hstep : s'.dequeueStep (.again none) = (s', .kick none) := by
                simp only [Slot.dequeueStep, hlast]
              have hlooked := (h.2 rfl hcache).access
              rw [hstep] at hlooked ⊢
              exact ⟨h.1, fun _ => hlooked⟩
          | some pair =>
              obtain ⟨mbuf, cache⟩ := pair
              have hcache := (Ring.dequeue_eq_some_iff _ _ _).1 hlast
              simp only [Slot.dequeueStep, hlast]
              refine ⟨?_, fun hnone => by cases hnone⟩
              have hstored : s'.stored = s.stored ++ added := h.1
              rw [← hstored, Slot.stored, Slot.stored, hcache]
              rfl
  | kick mbuf => exact h

/-- A chain that the service adds comes last. -/
theorem DequeueInv.submit (h : DequeueInv s added s' pc) (x : α) (room : 0 < s'.ring.freeCount) :
    DequeueInv s (added ++ [x]) { s' with ring := (s'.ring.enqueueBulk 1 [x]).2 } pc := by
  have hitems : (s'.ring.enqueueBulk 1 [x]).2.items = s'.ring.items ++ [x] := by
    rw [Ring.items_enqueueBulk, if_neg]
    rw [List.length_singleton]
    omega
  have hstored : ∀ front : List α, front ++ s'.stored = s.stored ++ added →
      front ++ Slot.stored { s' with ring := (s'.ring.enqueueBulk 1 [x]).2 } =
        s.stored ++ (added ++ [x]) := by
    intro front heq
    rw [← List.append_assoc s.stored, ← heq, Slot.stored, Slot.stored, hitems]
    simp only [List.append_assoc]
  cases pc with
  | start => exact hstored [] h
  | clear mbuf => exact ⟨hstored _ h.1, h.2⟩
  | count mbuf => exact ⟨hstored _ h.1, h.2⟩
  | burst mbuf =>
      refine ⟨hstored _ h.1, h.2.1, ?_⟩
      rw [hitems]
      simp
  | again mbuf =>
      exact ⟨hstored _ h.1, fun hmbuf hcache => (h.2 hmbuf hcache).submit x room⟩
  | kick mbuf => exact ⟨hstored _ h.1, fun hmbuf => (h.2 hmbuf).submit x room⟩

/-- The flag is nobody's business here. -/
theorem DequeueInv.mark (h : DequeueInv s added s' pc) :
    DequeueInv s added { s' with readReadyToApp := true } pc := by
  cases pc with
  | start => exact h
  | clear mbuf => exact h
  | count mbuf => exact h
  | burst mbuf => exact h
  | again mbuf => exact ⟨h.1, fun hmbuf hcache => (h.2 hmbuf hcache).mark⟩
  | kick mbuf => exact ⟨h.1, fun hmbuf => (h.2 hmbuf).mark⟩

theorem dequeueInv_of_run {pc₀ : DequeuePc α} (hrun : DequeueRun s pc₀ added s' pc)
    (hstart : pc₀ = .start) : DequeueInv s added s' pc := by
  induction hrun with
  | refl _ =>
      subst hstart
      exact (List.append_nil _).symm
  | access prior ih =>
      have h := ih hstart
      subst hstart
      exact h.access prior
  | submit prior x room ih => exact (ih hstart).submit x room
  | mark prior ih => exact (ih hstart).mark

/-- **`ipaugenblick_dequeue_rx_buf` is a FIFO over cache and ring.**  Whatever the service adds
meanwhile, the call hands out the head of cache followed by ring, leaves the rest followed by what
was added, and comes back empty-handed only if it found both empty. -/
theorem dequeue_rx_buf_fifo {mbuf : Option α}
    (hrun : DequeueRun s .start added s' (.kick mbuf)) :
    (∀ x rest, s.stored = x :: rest → mbuf = some x ∧ s'.stored = rest ++ added) ∧
    mbuf.toList ++ s'.stored = s.stored ++ added ∧
    (mbuf = none → LookedEmpty s added s' (.kick mbuf)) := by
  obtain ⟨hstored, hlooked⟩ := dequeueInv_of_run hrun rfl
  refine ⟨fun x rest hhead => ?_, hstored, hlooked⟩
  rw [hhead, List.cons_append] at hstored
  cases mbuf with
  | some y =>
      obtain ⟨rfl, hrest⟩ := List.cons.inj hstored
      exact ⟨rfl, hrest⟩
  | none =>
      -- what was stored at the start was still there when the call looked
      obtain ⟨before, _, looked, _, hbefore, hempty, _⟩ := hlooked rfl
      have hkept := (dequeueInv_of_run hbefore rfl).1
      rw [hempty, hhead] at hkept
      cases hkept

end Dequeue

/-- One chain in the cache, two in the ring. -/
def threeStored : Slot ℕ := ⟨⟨[2, 3], by decide⟩, ⟨[1], by decide⟩, true⟩

/-- A fourth chain arrives behind the first access: the first is handed out, the others wait in
order. -/
theorem dequeue_rx_buf_fifo_four :
    ∃ s' : Slot ℕ, DequeueRun threeStored .start [4] s' (.kick (some 1)) ∧
      s'.stored = [2, 3, 4] := by
  have hrun : DequeueRun threeStored .start [4] _ (.kick (some 1)) :=
    ((DequeueRun.refl threeStored .start).access.submit 4 (by decide)).access.access.access.access
  exact ⟨_, hrun, ((dequeue_rx_buf_fifo hrun).1 1 [2, 3] rfl).2⟩

/-! ## The service: one callback -/

/-- Where the service is inside `user_data_available_cbk`. -/
inductive SubmitPc (α : Type)
  | /-- Before the free entries of `rx_ring` are counted. -/
    start
  | /-- Before the test of the loop. -/
    loop (ringFree : ℕ)
  | /-- `kernel_recvmsg` gave a chain; before it is submitted. -/
    submit (ringFree : ℕ) (chain : α)
  | /-- Back in the caller. -/
    returned

/-- One callback on one connection, with the record of what went through. -/
structure CbkState (α : Type) where
  ring : Ring α dataRingCapacity
  pc : SubmitPc α
  /-- The free count as it was read. -/
  free : ℕ
  /-- Turns of the loop, that is calls of `kernel_recvmsg`. -/
  turns : ℕ
  /-- Accesses that the service has made. -/
  accesses : ℕ
  /-- The chains that `kernel_recvmsg` returned with a positive count. -/
  received : List α
  /-- The chains that `ipaugenblick_submit_rx_buf` refused. -/
  refused : List α
  /-- The chains that the client took. -/
  taken : List α

inductive CbkStep (α : Type)
  | /-- The next access of the callback; `rc` is what `kernel_recvmsg` gives if it is called, a
    chain or a count that is not positive. -/
    service (rc : Option α)
  | /-- The client takes up to `n` chains. -/
    client (n : ℕ)

/-- The next access of `user_data_available_cbk`. -/
def CbkState.service (s : CbkState α) (rc : Option α) : Option (CbkState α) :=
  let s' := { s with accesses := s.accesses + 1 }
  match s.pc with
  | .start => some { s' with free := s.ring.freeCount, pc := .loop s.ring.freeCount }
  | .loop 0 => some { s' with pc := .returned }
  | .loop (ringFree + 1) =>
      match rc with
      | none => some { s' with turns := s.turns + 1, pc := .returned }
      | some chain =>
          some { s' with
            turns := s.turns + 1, received := s.received ++ [chain]
            pc := .submit ringFree chain }
  | .submit ringFree chain =>
      match s.ring.enqueueBulk 1 [chain] with
      | (.nobufs, ring) =>
          some { s' with ring, refused := s.refused ++ [chain], pc := .returned }
      | (_, ring) => some { s' with ring, pc := .loop ringFree }
  | .returned => none

/-- The callback against a client that dequeues at any time.  The callback has counted the room
before it calls `kernel_recvmsg`, and a client that dequeues can only add to it. -/
def cbkMachine (ring : Ring α dataRingCapacity) : Machine (CbkState α) (CbkStep α) where
  init :=
    { ring, pc := .start, free := 0, turns := 0, accesses := 0, received := [], refused := []
      taken := [] }
  step s
    | .service rc => s.service rc
    | .client n =>
        let burst := s.ring.dequeueBurst n
        some { s with ring := burst.2, taken := s.taken ++ burst.1 }

/-- Where the chains are and how much room is left, access by access. -/
def CbkInv (start : List α) (s : CbkState α) : Prop :=
  s.refused = [] ∧
  match s.pc with
  | .start => s.taken ++ s.ring.items = start ++ s.received ∧ s.turns = 0 ∧ s.accesses = 0
  | .loop ringFree =>
      s.taken ++ s.ring.items = start ++ s.received ∧ ringFree ≤ s.ring.freeCount ∧
        s.turns + ringFree = s.free ∧ s.accesses = 2 * s.turns + 1
  | .submit ringFree chain =>
      s.taken ++ s.ring.items ++ [chain] = start ++ s.received ∧
        ringFree + 1 ≤ s.ring.freeCount ∧ s.turns + ringFree = s.free ∧
        s.accesses = 2 * s.turns
  | .returned =>
      s.taken ++ s.ring.items = start ++ s.received ∧ s.turns ≤ s.free ∧
        s.accesses ≤ 2 * s.turns + 2

section Callback

variable {ring : Ring α dataRingCapacity} {start : List α} {s t : CbkState α}

/-- A client only makes room. -/
theorem CbkInv.client (h : CbkInv start s) (n : ℕ) :
    CbkInv start { s with
      ring := (s.ring.dequeueBurst n).2, taken := s.taken ++ (s.ring.dequeueBurst n).1 } := by
  have hmoved : s.taken ++ (s.ring.dequeueBurst n).1 ++ (s.ring.dequeueBurst n).2.items =
      s.taken ++ s.ring.items := by
    rw [Ring.dequeueBurst_fst, Ring.items_dequeueBurst, List.append_assoc, List.take_append_drop]
  have hroom : s.ring.freeCount ≤ (s.ring.dequeueBurst n).2.freeCount := by
    simp only [Ring.freeCount, Ring.items_dequeueBurst, List.length_drop]
    omega
  obtain ⟨hrefused, hpc⟩ := h
  refine ⟨hrefused, ?_⟩
  cases hat : s.pc with
  | start =>
      simp only [hat] at hpc ⊢
      exact ⟨hmoved.trans hpc.1, hpc.2⟩
  | loop ringFree =>
      simp only [hat] at hpc ⊢
      exact ⟨hmoved.trans hpc.1, Nat.le_trans hpc.2.1 hroom, hpc.2.2⟩
  | submit ringFree chain =>
      simp only [hat] at hpc ⊢
      refine ⟨?_, Nat.le_trans hpc.2.1 hroom, hpc.2.2⟩
      rw [hmoved]
      exact hpc.1
  | returned =>
      simp only [hat] at hpc ⊢
      exact ⟨hmoved.trans hpc.1, hpc.2⟩

/-- A chain is submitted into the room that was counted for it. -/
theorem CbkInv.service (h : CbkInv start s) {rc : Option α} (hstep : s.service rc = some t) :
    CbkInv start t := by
  obtain ⟨hrefused, hpc⟩ := h
  unfold CbkState.service at hstep
  dsimp only at hstep
  cases hat : s.pc with
  | start =>
      simp only [hat, Option.some.injEq] at hpc hstep
      subst hstep
      refine ⟨hrefused, hpc.1, Nat.le_refl _, ?_, ?_⟩
      · simp [hpc.2.1]
      · simp [hpc.2.1, hpc.2.2]
  | loop ringFree =>
      cases ringFree with
      | zero =>
          simp only [hat, Option.some.injEq] at hpc hstep
          subst hstep
          refine ⟨hrefused, hpc.1, ?_, ?_⟩
          · exact Nat.le_of_eq hpc.2.2.1
          · dsimp only
            omega
      | succ ringFree =>
          cases rc with
          | none =>
              simp only [hat, Option.some.injEq] at hpc hstep
              subst hstep
              refine ⟨hrefused, hpc.1, ?_, ?_⟩
              all_goals
                dsimp only
                omega
          | some chain =>
              simp only [hat, Option.some.injEq] at hpc hstep
              subst hstep
              refine ⟨hrefused, ?_, hpc.2.1, ?_, ?_⟩
              · dsimp only
                rw [hpc.1, List.append_assoc]
              all_goals
                dsimp only
                omega
  | submit ringFree chain =>
      simp only [hat] at hpc hstep
      obtain ⟨hchains, hroom, hfree, haccesses⟩ := hpc
      have hitems : (s.ring.enqueueBulk 1 [chain]).2.items = s.ring.items ++ [chain] := by
        rw [Ring.items_enqueueBulk, if_neg]
        rw [List.length_singleton]
        omega
      split at hstep
      next ring' heq =>
        have hfull := Ring.freeCount_of_nobufs heq
        omega
      next code ring' _ heq =>
        rw [heq] at hitems
        dsimp only at hitems
        cases hstep
        refine ⟨hrefused, ?_, ?_, hfree, ?_⟩
        · dsimp only
          rw [hitems, ← List.append_assoc]
          exact hchains
        · simp only [Ring.freeCount, hitems, List.length_append, List.length_singleton] at hroom ⊢
          omega
        · dsimp only
          omega
  | returned =>
      simp only [hat] at hstep
      cases hstep

theorem cbkInv_reachable (h : (cbkMachine ring).Reachable s) : CbkInv ring.items s := by
  refine @Machine.invariant_of_step _ _ (cbkMachine ring) (fun _ _ => True) (CbkInv ring.items)
    ⟨rfl, (List.append_nil _).symm, rfl, rfl⟩ ?_ s h
  intro s a t hs _ hstep
  cases a with
  | service rc => exact hs.service hstep
  | client n =>
      obtain rfl := Option.some.inj hstep
      exact hs.client n

/-- **The submit marked "should not happen" does not happen.**  However the client dequeues and
whatever `kernel_recvmsg` gives, no submit is refused, the loop makes at most as many turns as the
count read at its start and the callback comes to its end, and then every chain received is in
`rx_ring` or was taken by the client. -/
theorem submit_rx_buf_succeeds (h : (cbkMachine ring).Reachable s) :
    s.refused = [] ∧ s.turns ≤ s.free ∧ s.accesses ≤ 2 * s.free + 2 ∧
    (s.pc ≠ .returned → ∀ rc, (s.service rc).isSome = true) ∧
    (s.pc = .returned → s.taken ++ s.ring.items = ring.items ++ s.received) := by
  obtain ⟨hrefused, hpc⟩ := cbkInv_reachable h
  refine ⟨hrefused, ?_, ?_, fun hrunning rc => ?_, fun hdone => ?_⟩
  case refine_1 =>
    cases hat : s.pc with
    | start | loop | submit | returned =>
        simp only [hat] at hpc
        omega
  case refine_2 =>
    cases hat : s.pc with
    | start | loop | submit | returned =>
        simp only [hat] at hpc
        omega
  case refine_3 =>
    unfold CbkState.service
    cases hat : s.pc with
    | start => rfl
    | loop ringFree =>
        cases ringFree with
        | zero => rfl
        | succ => cases rc <;> rfl
    | submit ringFree chain =>
        dsimp only
        split <;> rfl
    | returned => exact absurd hat hrunning
  case refine_4 =>
    simp only [hdone] at hpc
    exact hpc.1

end Callback

/-- The client takes two chains between two turns of the loop. -/
theorem submit_rx_buf_succeeds_two :
    ∃ s, (cbkMachine (⟨[1, 2, 3], by decide⟩ : Ring ℕ dataRingCapacity)).Reachable s ∧
      s.pc = .returned ∧ s.received = [7, 8] ∧ s.refused = [] ∧
      s.taken ++ s.ring.items = [1, 2, 3, 7, 8] := by
  have hrun : (cbkMachine (⟨[1, 2, 3], by decide⟩ : Ring ℕ dataRingCapacity)).Reachable _ :=
    Machine.ReachableWhere.init
      |>.step (a := CbkStep.service none) trivial rfl
      |>.step (a := CbkStep.service (some 7)) trivial rfl
      |>.step (a := CbkStep.service none) trivial rfl
      |>.step (a := CbkStep.client 2) trivial rfl
      |>.step (a := CbkStep.service (some 8)) trivial rfl
      |>.step (a := CbkStep.service none) trivial rfl
      |>.step (a := CbkStep.service none) trivial rfl
  obtain ⟨hrefused, _, _, _, hdone⟩ := submit_rx_buf_succeeds hrun
  exact ⟨_, hrun, rfl, rfl, hrefused, hdone rfl⟩

end IpAugenblick
