/-
# The received stream

What a client reads is the front of what was submitted, byte for byte, in every
run whose bounded requests keep clear of one kind of boundary: a request that
ends exactly with a segment makes `ipaugenblick_try_read_exact_amount` record a
length for the next segment that is the length of the segment behind it, or the
one left by an earlier call.
-/

import IpAugenblick.Client.Runs

namespace IpAugenblick

open Lib

/-- The segment lengths of the chain at `p`. -/
def chainLens (M : MbufMem) : ℕ → Option ℕ → List ℕ
  | 0, _ => []
  | _ + 1, none => []
  | fuel + 1, some i => (M.mbuf i).dataLen :: chainLens M fuel (M.next i)

theorem chainLens_eq_lensOf (M : MbufMem) {p : Option ℕ} {ids : List ℕ} {fuel : ℕ}
    (hlinked : Linked M.next p ids) (hfuel : ids.length ≤ fuel) :
    chainLens M fuel p = lensOf M ids := by
  induction ids generalizing p fuel with
  | nil =>
      rw [Linked.nil_iff] at hlinked
      subst hlinked
      cases fuel <;> rfl
  | cons i ids ih =>
      obtain ⟨rfl, htail⟩ := hlinked
      cases fuel with
      | zero => simp at hfuel
      | succ fuel => rw [chainLens, ih htail (by simpa using hfuel), lensOf_cons]

instance decidableEdgeOk (descr : Shadow) : (lens : List ℕ) → Decidable (edgeOk descr lens)
  | [] => isTrue trivial
  | [s] => inferInstanceAs
      (Decidable (descr.shadowLenRemainder = s ∧ descr.shadowLenDelievered = 0))
  | s :: t :: _ => inferInstanceAs (Decidable (s = t))

instance decidableBoundaryOk (descr : Shadow) :
    (lens : List ℕ) → (n : ℕ) → Decidable (boundaryOk descr lens n)
  | [], _ => isTrue trivial
  | l :: ls, n =>
      have := decidableBoundaryOk descr ls (n - l)
      inferInstanceAs (Decidable
        (if l < n then boundaryOk descr ls (n - l) else if l = n then edgeOk descr ls else True))

/-- The boundary condition of a request for `n` bytes of the next chain of the queue. -/
def nextChainOk (c : RxClient) (n : ℕ) : Prop :=
  match c.queue.head? with
  | none => True
  | some p => boundaryOk c.descr (chainLens c.mem c.mem.size (some p)) n

instance decidableNextChainOk (c : RxClient) (n : ℕ) : Decidable (nextChainOk c n) := by
  unfold nextChainOk
  exact match c.queue.head? with
    | none => isTrue trivial
    | some _ => inferInstance

/-- The segment lengths of the half-delivered chain, as the descriptor records them. -/
def shadowLens (c : RxClient) : List ℕ :=
  c.descr.shadowLenRemainder :: chainLens c.mem c.mem.size c.descr.shadowNext

/-- A request for `n` bytes ends on no boundary with a wrong length recorded. -/
def requestOk (c : RxClient) (n : ℕ) : Prop :=
  0 < n →
    if c.descr.shadow = none then nextChainOk c n
    else boundaryOk c.descr (shadowLens c) n ∧
      ((shadowLens c).sum < n → nextChainOk c (n - (shadowLens c).sum))

/-- The steps on which a run stays clear of wrong lengths. -/
def boundedReadsOk (s : RxState) : RxStep → Prop
  | .receive n => requestOk s.toRxClient n
  | _ => True

instance decidableRequestOk (c : RxClient) (n : ℕ) : Decidable (requestOk c n) :=
  inferInstanceAs (Decidable (0 < n → if c.descr.shadow = none then nextChainOk c n
    else boundaryOk c.descr (shadowLens c) n ∧
      ((shadowLens c).sum < n → nextChainOk c (n - (shadowLens c).sum))))

instance decidableBoundedReadsOk (s : RxState) : (a : RxStep) → Decidable (boundedReadsOk s a)
  | .receive n => inferInstanceAs (Decidable (requestOk s.toRxClient n))
  | .submit _ => isTrue trivial
  | .release => isTrue trivial
  | .close _ => isTrue trivial

section Condition

variable {c : RxClient} {pend : List ℕ} {chains : List (List ℕ)} {n : ℕ}

theorem nextChainOk_iff (h : Chains c pend chains) (n : ℕ) :
    nextChainOk c n ↔ ∀ ids, chains.head? = some ids → boundaryOk c.descr (lensOf c.mem ids) n := by
  have hqueued := h.queued
  unfold nextChainOk
  cases chains with
  | nil =>
      rw [List.forall₂_nil_right_iff.mp hqueued]
      simp
  | cons ids rest =>
      obtain ⟨p, ps, hlinked, -, hqueue⟩ := List.forall₂_cons_right_iff.mp hqueued
      have hlength : ids.length ≤ c.mem.size := by
        apply h.length_le
        rw [List.flatten_cons]
        exact (List.sublist_append_left _ _).trans (List.sublist_append_right _ _)
      rw [hqueue]
      simp only [List.head?_cons, Option.some.injEq, forall_eq',
        chainLens_eq_lensOf c.mem hlinked hlength]

/-- The condition on the state says what the proof of a receive needs. -/
theorem receiveOk_of_requestOk (h : Chains c pend chains) (hok : requestOk c n) :
    receiveOk c.mem c.descr pend chains n := by
  intro hn
  have hrequest := hok hn
  have hpending := h.pending
  cases pend with
  | nil =>
      rw [if_pos hpending.1] at hrequest
      exact (nextChainOk_iff h n).mp hrequest
  | cons x rest =>
      obtain ⟨hshadow, hlinked, -⟩ := hpending
      have hlength : rest.length ≤ c.mem.size := by
        apply h.length_le
        exact (List.sublist_cons_self x rest).trans (List.sublist_append_left _ _)
      have hlens : shadowLens c = c.descr.shadowLenRemainder :: lensOf c.mem rest := by
        rw [shadowLens, chainLens_eq_lensOf c.mem hlinked hlength]
      rw [if_neg (by rw [hshadow]; simp), hlens, List.sum_cons] at hrequest
      refine ⟨hrequest.1, fun hless => ?_⟩
      exact (nextChainOk_iff h _).mp (hrequest.2 hless)

end Condition

/-! ## Conservation along a run -/

/-- Nothing read is lost, repeated or invented, and no request was exceeded. -/
structure Conserved (s : RxState) : Prop where
  front : s.read <+: s.submitted
  atMost : ∀ r ∈ s.receives, 0 < r.1 → r.2 ≤ r.1
  waiting : s.closed = false → ∃ own pend chains, Shape s own pend chains ∧ RemainderOk s.descr ∧
    s.read ++ (pendBytes s.mem s.descr pend ++ bytesOf s.mem chains.flatten) = s.submitted

theorem Conserved.init : Conserved rxMachine.init where
  front := List.prefix_refl _
  atMost := by simp [rxMachine]
  waiting := fun _ => ⟨[], [], [], Shape.init, fun h => absurd rfl h, rfl⟩

theorem Conserved.submit {s t : RxState} {segs : List (List UInt8)} (h : Conserved s)
    (hstep : rxMachine.step s (.submit segs) = some t) : Conserved t := by
  obtain ⟨hclosed, hsegs, hlength, hroom, ht⟩ := rxMachine_submit hstep
  obtain ⟨own, pend, chains, hshape, hrem, hbytes⟩ := h.waiting hclosed
  obtain ⟨hshape', hpend, hwaiting⟩ := hshape.submit hsegs
    (fun seg hseg => (hlength seg hseg).2) hroom (show t.mem = allocChain s.mem segs by rw [ht])
    (by rw [ht]) (by rw [ht]) (by rw [ht]) (by rw [ht])
  have hread : t.read = s.read := by rw [ht]
  have hsubmitted : t.submitted = s.submitted ++ segs.flatten := by rw [ht]
  have hall : t.read ++ (pendBytes t.mem t.descr pend ++
      bytesOf t.mem (chains ++ [freshIds s.mem segs.length]).flatten) = t.submitted := by
    rw [hread, hsubmitted, hpend, hwaiting, ← hbytes]
    simp only [List.append_assoc]
  exact
    { front := ⟨_, hall⟩
      atMost := by
        rw [ht]
        exact h.atMost
      waiting := by
        intro _
        refine ⟨own, pend, _, hshape', ?_, hall⟩
        rw [ht]
        exact hrem }

theorem Conserved.receive {s t : RxState} {n : ℕ} (h : Conserved s)
    (hok : requestOk s.toRxClient n) (hstep : rxMachine.step s (.receive n) = some t) :
    Conserved t := by
  obtain ⟨hclosed, hheld, hnothing, hsomething⟩ := rxMachine_receive hstep
  obtain ⟨own, pend, chains, hshape, hrem, hbytes⟩ := h.waiting hclosed
  obtain rfl := hshape.own_eq_nil hheld
  have hrequest := receiveOk_of_requestOk hshape.toChains hok
  rcases ipaugenblickReceive_spec hshape.toChains n with
    ⟨hnone, rfl, rfl, hchains, hmem, hdescr⟩ | ⟨got, own, tail, pend', chains', hgot, hread⟩
  · rw [hnothing hnone]
    refine { front := h.front, atMost := h.atMost, waiting := fun _ => ⟨[], [], [], ?_, ?_, ?_⟩ }
    · exact hshape.receive_none hchains hmem hheld
    · intro hshadow
      exact absurd hchains.pending.1 hshadow
    · exact hbytes
  · have ht := hsomething got hgot
    obtain ⟨c, hc⟩ : ∃ c, (s.toRxClient.ipaugenblickReceive n).2 = c := ⟨_, rfl⟩
    rw [hc] at hread ht
    have hread' := hread.mono fun _ : True => ⟨hrequest, hrem⟩
    have hshape' : Shape t own pend' chains' := by
      rw [ht]
      exact hshape.receive hread rfl
    have hlength : (own ++ tail).length ≤ c.mem.size := by
      have hfuel := hshape'.length_handed (by rw [ht]; exact hread.linked)
        (by rw [ht]; exact hread.tailOk)
      rwa [ht] at hfuel
    have hchain : c.mem.chainBytes c.mem.size (some got.pdesc) = bytesOf c.mem (own ++ tail) :=
      c.mem.chainBytes_eq_flatMap hread.linked hlength
    have hall : t.read ++ (pendBytes t.mem t.descr pend' ++ bytesOf t.mem chains'.flatten) =
        t.submitted := by
      rw [ht]
      show s.read ++ c.mem.chainBytes c.mem.size (some got.pdesc) ++
        (pendBytes c.mem c.descr pend' ++ bytesOf c.mem chains'.flatten) = s.submitted
      rw [hchain, List.append_assoc, hread'.bytes trivial]
      exact hbytes
    exact
      { front := ⟨_, hall⟩
        atMost := by
          rw [ht]
          intro r hr
          rcases List.mem_cons.mp hr with rfl | hr
          · intro hn
            show (c.mem.chainBytes c.mem.size (some got.pdesc)).length ≤ n
            rw [hchain, length_bytesOf]
            exact hread.atMost hn
          · exact h.atMost r hr
        waiting := by
          intro _
          refine ⟨own, pend', chains', hshape', ?_, hall⟩
          rw [ht]
          exact hread'.remainder trivial }

theorem Conserved.release {s t : RxState} (h : Conserved s)
    (hstep : rxMachine.step s .release = some t) : Conserved t := by
  obtain ⟨pdesc, hheld, ht⟩ := rxMachine_release hstep
  have hread : t.read = s.read := by rw [ht]
  have hsubmitted : t.submitted = s.submitted := by rw [ht]
  refine { front := ?_, atMost := ?_, waiting := fun hclosed => ?_ }
  · rw [hread, hsubmitted]
    exact h.front
  · rw [ht]
    exact h.atMost
  · obtain ⟨own, pend, chains, hshape, hrem, hbytes⟩ :=
      h.waiting (by rw [ht] at hclosed; exact hclosed)
    obtain ⟨hshape', hcores, hdescr, -⟩ := hshape.release hheld
      (show t.toRxClient = s.toRxClient.ipaugenblickReleaseRxBuffer pdesc by rw [ht])
      (by rw [ht])
    refine ⟨[], pend, chains, hshape', ?_, ?_⟩
    · rw [hdescr]
      exact hrem
    · rw [hread, hsubmitted, hdescr, pendBytes_congr fun i _ => congrFun hcores i,
        bytesOf_congr fun i _ => MbufMem.data_congr hcores i]
      exact hbytes

theorem Conserved.close {s t : RxState} {gotCommand : Bool} (h : Conserved s)
    (hstep : rxMachine.step s (.close gotCommand) = some t) : Conserved t := by
  obtain ⟨-, -, ht⟩ := rxMachine_close hstep
  cases gotCommand with
  | false =>
      rw [ht]
      exact h
  | true =>
      rw [ht]
      exact
        { front := h.front
          atMost := h.atMost
          waiting := fun hopen => absurd hopen (by simp) }

/-- **Stream conservation.**  In every run whose bounded requests record the right
lengths, what was read is the front of what was submitted, and no request handed
out more than it asked for. -/
theorem read_is_front_of_submitted {s : RxState}
    (hreach : rxMachine.ReachableWhere boundedReadsOk s) :
    s.read <+: s.submitted ∧ ∀ r ∈ s.receives, 0 < r.1 → r.2 ≤ r.1 := by
  have hconserved : Conserved s := by
    refine rxMachine.invariant_of_step Conserved.init ?_ hreach
    intro s a t h hok hstep
    cases a with
    | submit segs => exact h.submit hstep
    | receive n => exact h.receive hok hstep
    | release => exact h.release hstep
    | close gotCommand => exact h.close hstep
  exact ⟨hconserved.front, hconserved.atMost⟩

/-- A run with cuts inside segments, over the end of a chain and at the end of a
chain. -/
theorem read_is_front_of_submitted_cut_inside :
    ∃ s, rxMachine.ReachableWhere boundedReadsOk s ∧ s.read = [65, 66, 67, 68, 69] ∧
      s.read <+: s.submitted ∧ ∀ r ∈ s.receives, 0 < r.1 → r.2 ≤ r.1 := by
  have hrun : ((rxMachine.restrict boundedReadsOk).run [.submit [[65, 66], [67]],
      .submit [[68, 69]], .receive 1, .release, .receive 3, .release, .receive 1,
      .release]).map RxState.read = some [65, 66, 67, 68, 69] := by decide +kernel
  obtain ⟨s, hs, hread⟩ := Option.map_eq_some_iff.mp hrun
  have hreach := rxMachine.reachableWhere_of_run hs
  exact ⟨s, hreach, hread, read_is_front_of_submitted hreach⟩

/-- A request that ends with a one-byte segment in front of another one, after
nothing was ever cut: the next segment gets the recorded length zero and its byte
is lost. -/
theorem read_skips_byte_at_boundary :
    ∃ s, rxMachine.run [.submit [[65], [66]], .receive 1, .release, .receive 1, .release,
        .submit [[67]], .receive 0] = some s ∧ ¬ s.read <+: s.submitted := by
  have hrun : (rxMachine.run [.submit [[65], [66]], .receive 1, .release, .receive 1, .release,
      .submit [[67]], .receive 0]).map (fun s => (s.read, s.submitted)) =
        some ([65, 67], [65, 66, 67]) := by decide +kernel
  obtain ⟨s, hs, hview⟩ := Option.map_eq_some_iff.mp hrun
  obtain ⟨hread, hsubmitted⟩ := Prod.mk.inj hview
  refine ⟨s, hs, ?_⟩
  rw [hread, hsubmitted]
  decide

end IpAugenblick
