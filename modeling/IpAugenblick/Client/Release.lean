/-
# Receive buffers are freed exactly once

`ipaugenblick_release_rx_buffer` stops at the shadow, and `ipaugenblick_flush_rx`
frees the shadow as a chain and then what is remembered as behind it.  The two fit
together when the shadow is not linked to what is behind it any more.  That link
is cut when a segment was read halfway, and left in place when a bounded read
ended exactly in front of the shadow.
-/

import IpAugenblick.Client.Runs

namespace IpAugenblick

open Lib

/-- The half-delivered chain is cut behind its first segment. -/
def shadowCut (c : RxClient) : Prop :=
  match c.descr.shadow with
  | none => True
  | some x => c.mem.next x = none

instance decidableShadowCut (c : RxClient) : Decidable (shadowCut c) := by
  unfold shadowCut
  exact match c.descr.shadow with
    | none => isTrue trivial
    | some _ => inferInstance

/-- A close that gets its command buffer finds the half-delivered chain cut. -/
def closesCut (s : RxState) : RxStep → Prop
  | .close true => shadowCut s.toRxClient
  | _ => True

instance decidableClosesCut (s : RxState) : (a : RxStep) → Decidable (closesCut s a)
  | .close true => inferInstanceAs (Decidable (shadowCut s.toRxClient))
  | .close false => isTrue trivial
  | .submit _ => isTrue trivial
  | .receive _ => isTrue trivial
  | .release => isTrue trivial

/-! ## The flush -/

/-- Freeing a queue of chains frees their segments in order. -/
theorem foldl_rtePktmbufFree (M : MbufMem) {ps : List ℕ} {chains : List (List ℕ)}
    (hqueued : List.Forall₂ (fun p ids => Linked M.next (some p) ids) ps chains)
    (hnodup : chains.flatten.Nodup) (hrange : ∀ i ∈ chains.flatten, i < M.size) :
    ps.foldl (fun M p => M.rtePktmbufFree (some p)) M =
      chains.flatten.foldl MbufMem.rtePktmbufFreeSeg M := by
  induction chains generalizing ps M with
  | nil =>
      rw [List.forall₂_nil_right_iff.mp hqueued]
      rfl
  | cons ids chains ih =>
      obtain ⟨p, ps, hlinked, hrest, rfl⟩ := List.forall₂_cons_right_iff.mp hqueued
      rw [List.flatten_cons] at hnodup hrange
      obtain ⟨hids, hchains, hdisjoint⟩ := List.nodup_append.mp hnodup
      have hlength : ids.length ≤ M.size :=
        MbufMem.length_le_size hids fun i hi => hrange i (List.mem_append_left _ hi)
      rw [List.foldl_cons, M.rtePktmbufFree_eq_foldl hlinked hlength, List.flatten_cons,
        List.foldl_append]
      apply ih
      · refine queued_congr hrest fun i hi => ?_
        have hout : i ∉ ids := fun hmem => hdisjoint i hmem i hi rfl
        rw [MbufMem.next, MbufMem.next, MbufMem.mbuf_foldl_freeSeg_of_not_mem _ hout]
      · exact hchains
      · intro i hi
        rw [MbufMem.size_foldl_freeSeg]
        exact hrange i (List.mem_append_right _ hi)

/-- Freeing a cut shadow and what is remembered as behind it frees the pending
segments in order. -/
theorem free_pending {M : MbufMem} {descr : Shadow} {pend : List ℕ}
    (hpending : Pending M descr pend) (hcut : ∀ x, descr.shadow = some x → M.next x = none)
    (hnodup : pend.Nodup) (hrange : ∀ i ∈ pend, i < M.size) :
    (M.rtePktmbufFree descr.shadow).rtePktmbufFree descr.shadowNext =
      pend.foldl MbufMem.rtePktmbufFreeSeg M := by
  cases pend with
  | nil =>
      obtain ⟨hshadow, hnext⟩ := hpending
      have hempty : ∀ N : MbufMem, N.rtePktmbufFree none = N := fun N =>
        N.rtePktmbufFree_eq_foldl (Linked.nil_iff.mpr rfl) (Nat.zero_le _)
      rw [hshadow, hnext, hempty, hempty]
      rfl
  | cons x rest =>
      obtain ⟨hshadow, hlinked, -⟩ := hpending
      obtain ⟨hx, hrest⟩ := List.nodup_cons.mp hnodup
      have hone : Linked M.next (some x) [x] := ⟨rfl, hcut x hshadow⟩
      have hsize : 0 < M.size := Nat.lt_of_le_of_lt (Nat.zero_le x) (hrange x (by simp))
      have hlength : rest.length ≤ M.size :=
        MbufMem.length_le_size hrest fun i hi => hrange i (by simp [hi])
      rw [hshadow, M.rtePktmbufFree_eq_foldl hone hsize, List.foldl_cons, List.foldl_nil,
        List.foldl_cons]
      apply MbufMem.rtePktmbufFree_eq_foldl
      · refine hlinked.congr fun i hi => ?_
        exact MbufMem.next_rtePktmbufFreeSeg_of_ne _ _ _ fun heq => hx (heq ▸ hi)
      · rw [MbufMem.size_rtePktmbufFreeSeg]
        exact hlength

/-- **Flush.**  With the shadow cut, every buffer that was not freed is freed now. -/
theorem ipaugenblickFlushRx_frees {s : RxState} {pend : List ℕ} {chains : List (List ℕ)}
    (h : Shape s [] pend chains) (hcut : shadowCut s.toRxClient) :
    (s.toRxClient.ipaugenblickFlushRx.mem.frees).Perm
      (List.range s.toRxClient.ipaugenblickFlushRx.mem.size) := by
  obtain ⟨-, hlive, -⟩ := List.nodup_append.mp h.nodup
  rw [List.nil_append] at hlive
  obtain ⟨hpend, hchains, hdisjoint⟩ := List.nodup_append.mp hlive
  have hqueue := foldl_rtePktmbufFree s.mem h.queued hchains fun i hi =>
    h.inRange (List.mem_append_right _ (List.mem_append_right _ hi))
  have hkept : ∀ i ∈ pend, (chains.flatten.foldl MbufMem.rtePktmbufFreeSeg s.mem).next i =
      s.mem.next i := by
    intro i hi
    have hout : i ∉ chains.flatten := fun hmem => hdisjoint i hi i hmem rfl
    rw [MbufMem.next, MbufMem.next, MbufMem.mbuf_foldl_freeSeg_of_not_mem _ hout]
  have hshadow := free_pending (h.pending.congr hkept)
    (by
      intro x hx
      have hmem : x ∈ pend := by
        have hpending := h.pending
        cases hcase : pend with
        | nil =>
            rw [hcase] at hpending
            rw [hpending.1] at hx
            cases hx
        | cons y rest =>
            rw [hcase] at hpending
            rw [hpending.1] at hx
            simp [Option.some.inj hx]
      rw [hkept x hmem]
      unfold shadowCut at hcut
      rw [hx] at hcut
      exact hcut)
    hpend
    (by
      intro i hi
      rw [MbufMem.size_foldl_freeSeg]
      exact h.inRange (List.mem_append_right _ (List.mem_append_left _ hi)))
  have hmem : s.toRxClient.ipaugenblickFlushRx.mem =
      (chains.flatten ++ pend).foldl MbufMem.rtePktmbufFreeSeg s.mem := by
    rw [List.foldl_append, ← hshadow, ← hqueue, RxClient.queue, List.foldl_append]
    rfl
  rw [hmem, MbufMem.frees_foldl_freeSeg, MbufMem.size_foldl_freeSeg]
  refine List.Perm.trans ?_ h.account
  have hmove : (chains.flatten ++ pend).reverse.Perm (pend ++ chains.flatten) :=
    (List.reverse_perm _).trans List.perm_append_comm
  exact (hmove.append_right _).trans List.perm_append_comm

/-! ## Along a run -/

/-- Open, every buffer has its place; closed, every buffer is freed. -/
structure Accounted (s : RxState) : Prop where
  whileOpen : s.closed = false → ∃ own pend chains, Shape s own pend chains
  onceClosed : s.closed = true → s.held = none ∧ s.mem.frees.Perm (List.range s.mem.size)

theorem Accounted.of_open {s : RxState} {own pend : List ℕ} {chains : List (List ℕ)}
    (hclosed : s.closed = false) (h : Shape s own pend chains) : Accounted s where
  whileOpen := fun _ => ⟨own, pend, chains, h⟩
  onceClosed := fun h => by simp [hclosed] at h

theorem Accounted.init : Accounted rxMachine.init :=
  Accounted.of_open rfl Shape.init

theorem Accounted.step {s t : RxState} {a : RxStep} (h : Accounted s) (hok : closesCut s a)
    (hstep : rxMachine.step s a = some t) : Accounted t := by
  cases a with
  | submit segs =>
      obtain ⟨hclosed, hsegs, hlength, hroom, ht⟩ := rxMachine_submit hstep
      obtain ⟨own, pend, chains, hshape⟩ := h.whileOpen hclosed
      obtain ⟨hshape', -, -⟩ := hshape.submit hsegs (fun seg hseg => (hlength seg hseg).2) hroom
        (show t.mem = allocChain s.mem segs by rw [ht]) (by rw [ht]) (by rw [ht]) (by rw [ht])
        (by rw [ht])
      exact .of_open (by rw [ht]; exact hclosed) hshape'
  | receive n =>
      obtain ⟨hclosed, hheld, hnext⟩ := rxMachine_receive hstep
      obtain ⟨own, pend, chains, hshape⟩ := h.whileOpen hclosed
      obtain rfl := hshape.own_eq_nil hheld
      rcases ipaugenblickReceive_spec hshape.toChains n with
        ⟨hnone, rfl, rfl, hchains, hmem, -⟩ | ⟨got, own, tail, pend', chains', hgot, hread⟩
      · rw [hnext.1 hnone]
        exact .of_open hclosed (hshape.receive_none hchains hmem hheld)
      · rw [hnext.2 got hgot]
        exact .of_open hclosed (hshape.receive hread rfl)
  | release =>
      obtain ⟨pdesc, hheld, rfl⟩ := rxMachine_release hstep
      cases hclosed : s.closed with
      | true =>
          have hnone := (h.onceClosed hclosed).1
          rw [hheld] at hnone
          cases hnone
      | false =>
          obtain ⟨own, pend, chains, hshape⟩ := h.whileOpen hclosed
          exact .of_open rfl (hshape.release hheld rfl rfl).1
  | close gotCommand =>
      obtain ⟨hclosed, hheld, hnext⟩ := rxMachine_close hstep
      cases gotCommand with
      | false =>
          rw [hnext]
          exact h
      | true =>
          obtain ⟨own, pend, chains, hshape⟩ := h.whileOpen hclosed
          obtain rfl := hshape.own_eq_nil hheld
          rw [hnext]
          exact
            { whileOpen := fun hopen => absurd hopen (by simp)
              onceClosed := fun _ => ⟨hheld, ipaugenblickFlushRx_frees hshape hok⟩ }

/-- **Freed exactly once.**  In every run that closes with the half-delivered chain
cut: no buffer is freed twice, no chain in the hands of the application contains a
freed buffer, and after the close every submitted buffer has been freed once. -/
theorem freed_exactly_once {s : RxState} (hreach : rxMachine.ReachableWhere closesCut s) :
    s.mem.frees.Nodup ∧
      (∀ pdesc, s.held = some pdesc →
        ∃ ids, Linked s.mem.next (some pdesc) ids ∧ ∀ i ∈ ids, i ∉ s.mem.frees) ∧
      (s.closed = true → ∀ i < s.mem.size, s.mem.frees.count i = 1) := by
  have h : Accounted s := by
    refine rxMachine.invariant_of_step Accounted.init ?_ hreach
    intro s a t h hok hstep
    exact h.step hok hstep
  cases hclosed : s.closed with
  | true =>
      obtain ⟨hheld, hfrees⟩ := h.onceClosed hclosed
      have hnodup : s.mem.frees.Nodup := hfrees.nodup_iff.mpr List.nodup_range
      refine ⟨hnodup, ?_, ?_⟩
      · intro pdesc hpdesc
        rw [hheld] at hpdesc
        cases hpdesc
      · intro _ i hi
        apply List.count_eq_one_of_mem hnodup
        exact hfrees.symm.subset (List.mem_range.mpr hi)
  | false =>
      obtain ⟨own, pend, chains, hshape⟩ := h.whileOpen hclosed
      obtain ⟨hnodup, -, hdisjoint⟩ := List.nodup_append.mp hshape.nodup
      refine ⟨hnodup, ?_, fun hopen => by cases hopen⟩
      intro pdesc hpdesc
      have hhanded := hshape.handed
      rw [hpdesc] at hhanded
      obtain ⟨tail, hlinked, htail⟩ := hhanded
      refine ⟨own ++ tail, hlinked, fun i hi hfreed => ?_⟩
      have hlive : i ∈ own ++ (pend ++ chains.flatten) := by
        rcases List.mem_append.mp hi with hown | htl
        · simp [hown]
        · simp [htail.mem htl]
      exact hdisjoint i hfreed i hlive rfl

/-- A close with a segment cut in the middle and one more behind it. -/
theorem freed_exactly_once_cut_inside :
    ∃ s, rxMachine.ReachableWhere closesCut s ∧ s.closed = true ∧ s.mem.size = 3 ∧
      s.mem.frees.Nodup ∧ ∀ i < s.mem.size, s.mem.frees.count i = 1 := by
  have hrun : ((rxMachine.restrict closesCut).run [.submit [[65, 66], [67]], .submit [[68]],
      .receive 1, .release, .close true]).map (fun s => (s.closed, s.mem.size)) =
        some (true, 3) := by decide +kernel
  obtain ⟨s, hs, hview⟩ := Option.map_eq_some_iff.mp hrun
  obtain ⟨hclosed, hsize⟩ := Prod.mk.inj hview
  have hreach := rxMachine.reachableWhere_of_run hs
  have hfreed := freed_exactly_once hreach
  exact ⟨s, hreach, hclosed, hsize, hfreed.1, hfreed.2.2 hclosed⟩

/-- A read that ends with the first of three segments leaves the shadow linked:
the flush frees the last segment twice. -/
theorem flush_frees_twice_at_boundary :
    ∃ s, rxMachine.run [.submit [[65], [66], [67]], .receive 1, .release, .close true] = some s ∧
      ¬ s.mem.frees.Nodup := by
  have hrun : (rxMachine.run [.submit [[65], [66], [67]], .receive 1, .release,
      .close true]).map (fun s => s.mem.frees) = some [2, 2, 1, 0] := by decide +kernel
  obtain ⟨s, hs, hfrees⟩ := Option.map_eq_some_iff.mp hrun
  refine ⟨s, hs, ?_⟩
  rw [hfrees]
  decide

end IpAugenblick
