/-
# Where the buffers of a connection are

Between two calls every buffer that was ever submitted is in exactly one place:
freed, handed to the application, pending in the shadow, or waiting in the queue.
`Shape` says so, and every step short of a close keeps it, whatever the lengths in
the descriptor say.
-/

import IpAugenblick.Client.Conserve

namespace IpAugenblick

open Lib

/-! ## A chain from the stack -/

/-- The buffers of the next chain of `k` segments. -/
def freshIds (M : MbufMem) (k : ℕ) : List ℕ := List.range' M.size k

/-- What a new chain adds to the memory. -/
structure Allocated (M : MbufMem) (segs : List (List UInt8)) (M' : MbufMem) : Prop where
  linked : Linked M'.next (if segs = [] then none else some M.size) (freshIds M segs.length)
  bytes : bytesOf M' (freshIds M segs.length) = segs.flatten
  size : M'.size = M.size + segs.length
  frees : M'.frees = M.frees
  old : ∀ i, i < M.size → M'.mbuf i = M.mbuf i
  short : (∀ i, (M.mbuf i).dataLen < 65536) → ∀ i, (M'.mbuf i).dataLen < 65536

theorem allocSegs_spec (M : MbufMem) {segs : List (List UInt8)}
    (hlength : ∀ seg ∈ segs, seg.length < 65536) : Allocated M segs (allocSegs M segs) := by
  induction segs generalizing M with
  | nil =>
      exact
        { linked := rfl
          bytes := rfl
          size := rfl
          frees := rfl
          old := fun _ _ => rfl
          short := fun h => h }
  | cons seg segs ih =>
      obtain ⟨N, hN⟩ : ∃ N : MbufMem, N = { M with
          mbuf := Function.update M.mbuf M.size
            { dataOff := 128
              dataLen := seg.length
              pktLen := seg.length
              nbSegs := 1
              next := if segs = [] then none else some (M.size + 1)
              refcnt := 1
              buf := fun j => seg.getD (j - 128) 0 }
          size := M.size + 1 } := ⟨_, rfl⟩
      have hrest := ih N fun s hs => hlength s (by simp [hs])
      have halloc : allocSegs M (seg :: segs) = allocSegs N segs := by rw [allocSegs, hN]
      have hsize : N.size = M.size + 1 := by rw [hN]
      have hhead : (allocSegs N segs).mbuf M.size = N.mbuf M.size :=
        hrest.old _ (by rw [hsize]; exact Nat.lt_succ_self _)
      have hids : freshIds M (seg :: segs).length = M.size :: freshIds N segs.length := by
        rw [freshIds, freshIds, hsize, List.length_cons, List.range'_succ]
      have hdata : (N.mbuf M.size).data = seg := by
        have hbuf : ∀ k, seg.getD (128 + k - 128) 0 = seg.getD k 0 := by
          intro k
          rw [Nat.add_sub_cancel_left]
        rw [hN]
        simp only [Function.update_self, Mbuf.data, Mbuf.slice, hbuf]
        apply List.ext_getElem
        · simp
        · intro k hk hk'
          simp [hk']
      have hlen : (N.mbuf M.size).dataLen = seg.length := by
        rw [hN]
        simp
      have hold : ∀ i, i ≠ M.size → N.mbuf i = M.mbuf i := by
        intro i hi
        rw [hN]
        exact Function.update_of_ne hi _ _
      rw [halloc]
      exact
        { linked := by
            rw [hids, if_neg (List.cons_ne_nil _ _)]
            refine ⟨rfl, ?_⟩
            have hnext : (allocSegs N segs).next M.size =
                if segs = [] then none else some N.size := by
              rw [MbufMem.next, hhead, hsize, hN]
              simp
            rw [hnext]
            exact hrest.linked
          bytes := by
            have hcons : bytesOf (allocSegs N segs) (M.size :: freshIds N segs.length) =
                ((allocSegs N segs).mbuf M.size).data ++
                  bytesOf (allocSegs N segs) (freshIds N segs.length) := rfl
            rw [hids, hcons, hhead, hdata, hrest.bytes, List.flatten_cons]
          size := by
            rw [hrest.size, hsize, List.length_cons]
            omega
          frees := by rw [hrest.frees, hN]
          old := by
            intro i hi
            rw [hrest.old i (by omega), hold i (by omega)]
          short := by
            intro hshort
            apply hrest.short
            intro i
            by_cases heq : i = M.size
            · rw [heq, hlen]
              exact hlength seg (by simp)
            · rw [hold i heq]
              exact hshort i }

/-- Only counters of the head differ. -/
theorem allocChain_spec (M : MbufMem) {segs : List (List UInt8)}
    (hlength : ∀ seg ∈ segs, seg.length < 65536) : Allocated M segs (allocChain M segs) := by
  have hsegs := allocSegs_spec M hlength
  have hnext : (allocChain M segs).next = (allocSegs M segs).next := MbufMem.next_modify _ _ rfl
  have hcores : (allocChain M segs).cores = (allocSegs M segs).cores :=
    MbufMem.cores_modify _ _ rfl
  exact
    { linked := by
        rw [hnext]
        exact hsegs.linked
      bytes := by
        rw [bytesOf_congr fun i _ => MbufMem.data_congr hcores i]
        exact hsegs.bytes
      size := hsegs.size
      frees := hsegs.frees
      old := by
        intro i hi
        rw [allocChain, MbufMem.modify_of_ne _ _ (Nat.ne_of_lt hi)]
        exact hsegs.old i hi
      short := by
        intro hshort i
        rw [MbufMem.dataLen_congr hcores]
        exact hsegs.short hshort i }

/-! ## The account of buffers -/

/-- What the application holds: the buffers `own` it will free, and possibly the
pending segment behind them. -/
def Handed (M : MbufMem) (pend : List ℕ) : Option ℕ → List ℕ → Prop
  | none, own => own = []
  | some pdesc, own => ∃ tail, Linked M.next (some pdesc) (own ++ tail) ∧ TailOk M pend tail

/-- Every submitted buffer is freed, handed out, pending or waiting. -/
structure Shape (s : RxState) (own pend : List ℕ) (chains : List (List ℕ)) : Prop where
  pending : Pending s.mem s.descr pend
  queued : List.Forall₂ (fun p ids => Linked s.mem.next (some p) ids) s.toRxClient.queue chains
  short : ∀ i, (s.mem.mbuf i).dataLen < 65536
  handed : Handed s.mem pend s.held own
  account : (s.mem.frees ++ (own ++ (pend ++ chains.flatten))).Perm (List.range s.mem.size)

section Account

variable {s : RxState} {own pend : List ℕ} {chains : List (List ℕ)}

theorem Shape.nodup (h : Shape s own pend chains) :
    (s.mem.frees ++ (own ++ (pend ++ chains.flatten))).Nodup :=
  h.account.nodup_iff.mpr List.nodup_range

theorem Shape.inRange (h : Shape s own pend chains) {i : ℕ}
    (hi : i ∈ own ++ (pend ++ chains.flatten)) : i < s.mem.size :=
  List.mem_range.mp (h.account.subset (List.mem_append_right _ hi))

/-- The part of the account that a receive works on. -/
theorem Shape.toChains (h : Shape s own pend chains) : Chains s.toRxClient pend chains where
  pending := h.pending
  queued := h.queued
  short := h.short
  nodup := (List.nodup_append.mp (List.nodup_append.mp h.nodup).2.1).2.1
  inRange := fun _ hi => h.inRange (List.mem_append_right _ hi)

/-- The buffers of the application are neither pending nor waiting. -/
theorem Shape.own_disjoint (h : Shape s own pend chains) {i : ℕ} (hown : i ∈ own) :
    i ∉ pend ++ chains.flatten := fun hmem =>
  (List.nodup_append.mp (List.nodup_append.mp h.nodup).2.1).2.2 i hown i hmem rfl

/-- The fuel of the chain walks covers what the application holds. -/
theorem Shape.length_handed (h : Shape s own pend chains) {p : Option ℕ} {tail : List ℕ}
    (hlinked : Linked s.mem.next p (own ++ tail)) (htail : TailOk s.mem pend tail) :
    (own ++ tail).length ≤ s.mem.size := by
  apply MbufMem.length_le_size hlinked.nodup
  intro i hi
  apply h.inRange
  rcases List.mem_append.mp hi with hown | htl
  · simp [hown]
  · simp [htail.mem htl]

/-- A client that holds nothing has no buffers of its own. -/
theorem Shape.own_eq_nil (h : Shape s own pend chains) (hheld : s.held = none) : own = [] := by
  have hhanded := h.handed
  rw [hheld] at hhanded
  exact hhanded

/-! ## One step -/

/-- **Submit.**  The new chain waits behind the others. -/
theorem Shape.submit {segs : List (List UInt8)} (h : Shape s own pend chains)
    (hsegs : segs ≠ []) (hlength : ∀ seg ∈ segs, seg.length < 65536)
    (hroom : 0 < s.ring.freeCount) {t : RxState}
    (hmem : t.mem = allocChain s.mem segs) (hcache : t.cache = s.cache)
    (hring : t.ring = (s.ring.enqueueBulk 1 [s.mem.size]).2) (hdescr : t.descr = s.descr)
    (hheld : t.held = s.held) :
    Shape t own pend (chains ++ [freshIds s.mem segs.length]) ∧
      pendBytes t.mem t.descr pend = pendBytes s.mem s.descr pend ∧
      bytesOf t.mem (chains ++ [freshIds s.mem segs.length]).flatten =
        bytesOf s.mem chains.flatten ++ segs.flatten := by
  have halloc := allocChain_spec s.mem hlength
  rw [← hmem] at halloc
  have hold : ∀ i ∈ own ++ (pend ++ chains.flatten), t.mem.mbuf i = s.mem.mbuf i :=
    fun i hi => halloc.old i (h.inRange hi)
  have hnext : ∀ i ∈ own ++ (pend ++ chains.flatten), t.mem.next i = s.mem.next i := by
    intro i hi
    rw [MbufMem.next, MbufMem.next, hold i hi]
  have hpend : ∀ i ∈ pend, i ∈ own ++ (pend ++ chains.flatten) := fun i hi => by simp [hi]
  have hchains : ∀ i ∈ chains.flatten, i ∈ own ++ (pend ++ chains.flatten) := fun i hi =>
    List.mem_append_right _ (List.mem_append_right _ hi)
  have hqueue : t.toRxClient.queue = s.toRxClient.queue ++ [s.mem.size] := by
    have hfits : ¬ s.ring.freeCount < [s.mem.size].length := by
      rw [List.length_singleton]
      omega
    rw [RxClient.queue, hcache, hring, Ring.items_enqueueBulk, if_neg hfits, RxClient.queue,
      List.append_assoc]
  have hflatten : (chains ++ [freshIds s.mem segs.length]).flatten =
      chains.flatten ++ freshIds s.mem segs.length := by simp
  refine ⟨?_, ?_, ?_⟩
  · exact
      { pending := by
          rw [hdescr]
          exact h.pending.congr fun i hi => hnext i (hpend i hi)
        queued := by
          rw [hqueue]
          have hnew := halloc.linked
          rw [if_neg hsegs] at hnew
          refine List.rel_append (queued_congr h.queued fun i hi => hnext i (hchains i hi)) ?_
          exact .cons hnew .nil
        short := halloc.short h.short
        handed := by
          have hhanded := h.handed
          rw [hheld]
          cases hcase : s.held with
          | none =>
              rw [hcase] at hhanded
              exact hhanded
          | some pdesc =>
              rw [hcase] at hhanded
              obtain ⟨tail, hlinked, htail⟩ := hhanded
              refine ⟨tail, hlinked.congr fun i hi => hnext i ?_,
                htail.congr fun i hi => hnext i (hpend i hi)⟩
              rcases List.mem_append.mp hi with hown | htl
              · simp [hown]
              · simp [htail.mem htl]
        account := by
          have hrange : List.range t.mem.size =
              List.range s.mem.size ++ freshIds s.mem segs.length := by
            rw [halloc.size, List.range_add, freshIds, List.range'_eq_map_range]
          rw [halloc.frees, hflatten, hrange]
          have happend := h.account.append_right (freshIds s.mem segs.length)
          simpa only [List.append_assoc] using happend }
  · rw [hdescr]
    apply pendBytes_congr
    intro i hi
    rw [hold i (hpend i hi)]
  · rw [hflatten, bytesOf_append, halloc.bytes]
    congr 1
    apply bytesOf_congr
    intro i hi
    rw [hold i (hchains i hi)]

/-- **Receive.**  What is handed out comes from the front of what was waiting. -/
theorem Shape.receive (h : Shape s [] pend chains) {n : ℕ} {got : Received} {ok : Prop}
    {own' tail pend' : List ℕ} {chains' : List (List ℕ)} {t : RxState}
    (hreceived : ReceivedAs s.toRxClient pend chains n ok t.toRxClient got.pdesc own' tail pend'
      chains') (hheld : t.held = some got.pdesc) : Shape t own' pend' chains' where
  pending := hreceived.after.pending
  queued := hreceived.after.queued
  short := hreceived.after.short
  handed := by
    rw [hheld]
    exact ⟨tail, hreceived.linked, hreceived.tailOk⟩
  account := by
    have hcount := h.account
    rw [List.nil_append, hreceived.split, ← hreceived.frees, ← hreceived.size] at hcount
    exact hcount

/-- A receive that finds nothing. -/
theorem Shape.receive_none {t : RxState} (h : Shape s [] [] [])
    (hchains : Chains t.toRxClient [] []) (hmem : t.mem = s.mem) (hheld : t.held = none) :
    Shape t [] [] [] where
  pending := hchains.pending
  queued := hchains.queued
  short := hchains.short
  handed := by
    rw [hheld]
    exact rfl
  account := by
    rw [hmem]
    exact h.account

/-- **Release.**  The buffers of the application are freed, and nothing else is. -/
theorem Shape.release (h : Shape s own pend chains) {pdesc : ℕ} (hpdesc : s.held = some pdesc)
    {t : RxState} (hclient : t.toRxClient = s.toRxClient.ipaugenblickReleaseRxBuffer pdesc)
    (hheld : t.held = none) :
    Shape t [] pend chains ∧ t.mem.cores = s.mem.cores ∧ t.descr = s.descr ∧
      ∀ i ∈ pend ++ chains.flatten, t.mem.mbuf i = s.mem.mbuf i := by
  have hhanded := h.handed
  rw [hpdesc] at hhanded
  obtain ⟨tail, hlinked, htail⟩ := hhanded
  have hdisjoint : ∀ i ∈ pend ++ chains.flatten, i ∉ own := fun i hi hown =>
    h.own_disjoint hown hi
  have hbefore : ∀ i ∈ own, some i ≠ s.descr.shadow := by
    intro i hi heq
    have hpending := h.pending
    cases hcase : pend with
    | nil =>
        rw [hcase] at hpending
        rw [hpending.1] at heq
        exact absurd heq (by simp)
    | cons x rest =>
        rw [hcase] at hpending
        rw [hpending.1] at heq
        obtain rfl := Option.some.inj heq
        exact hdisjoint i (by simp [hcase]) hi
  have hstop : tail = [] ∨ tail.head? = s.descr.shadow := by
    rcases htail with hnil | ⟨x, rest, hx, hone, -⟩
    · exact .inl hnil
    · right
      have hpending := h.pending
      rw [hx] at hpending
      rw [hone, hpending.1, List.head?_cons]
  have hlength := h.length_handed hlinked htail
  have hsweep : t.mem = own.foldl MbufMem.rtePktmbufFreeSeg s.mem := by
    rw [hclient]
    exact sweepUntil_eq_foldl MbufMem.next_rtePktmbufFreeSeg_of_ne hlinked hlength hbefore hstop
  have hkept : ∀ i ∈ pend ++ chains.flatten, t.mem.mbuf i = s.mem.mbuf i := by
    intro i hi
    rw [hsweep, MbufMem.mbuf_foldl_freeSeg_of_not_mem _ (hdisjoint i hi)]
  have hnext : ∀ i ∈ pend ++ chains.flatten, t.mem.next i = s.mem.next i := by
    intro i hi
    rw [MbufMem.next, hkept i hi, MbufMem.next]
  have hcores : t.mem.cores = s.mem.cores := by rw [hsweep, MbufMem.cores_foldl_freeSeg]
  have hdescr : t.descr = s.descr := by
    rw [hclient]
    rfl
  refine ⟨?_, hcores, hdescr, hkept⟩
  exact
    { pending := by
        rw [hdescr]
        exact h.pending.congr fun i hi => hnext i (by simp [hi])
      queued := by
        have hqueue : t.toRxClient.queue = s.toRxClient.queue := by
          rw [hclient]
          rfl
        rw [hqueue]
        exact queued_congr h.queued fun i hi => hnext i (List.mem_append_right _ hi)
      short := by
        intro i
        rw [MbufMem.dataLen_congr hcores]
        exact h.short i
      handed := by
        rw [hheld]
        exact rfl
      account := by
        rw [hsweep, MbufMem.frees_foldl_freeSeg, MbufMem.size_foldl_freeSeg, List.nil_append]
        refine List.Perm.trans ?_ h.account
        rw [List.append_assoc, ← List.append_assoc s.mem.frees]
        have hmove : (own.reverse ++ s.mem.frees).Perm (s.mem.frees ++ own) :=
          List.perm_append_comm.trans ((List.reverse_perm own).append_left _)
        have hall := hmove.append_right (pend ++ chains.flatten)
        simpa only [List.append_assoc] using hall }

end Account

/-! ## Steps of the machine -/

theorem Shape.init : Shape rxMachine.init [] [] [] where
  pending := ⟨rfl, rfl⟩
  queued := .nil
  short := fun _ => show 0 < 65536 by decide
  handed := rfl
  account := .refl _

section Inversion

variable {s t : RxState}

theorem rxMachine_submit {segs : List (List UInt8)}
    (hstep : rxMachine.step s (.submit segs) = some t) :
    s.closed = false ∧ segs ≠ [] ∧ (∀ seg ∈ segs, 0 < seg.length ∧ seg.length < 65536) ∧
      0 < s.ring.freeCount ∧
      t = { s with
        mem := allocChain s.mem segs
        ring := (s.ring.enqueueBulk 1 [s.mem.size]).2
        submitted := s.submitted ++ segs.flatten } := by
  simp only [rxMachine] at hstep
  split at hstep
  next hguard =>
      obtain ⟨hclosed, hsegs, hlength, hroom⟩ := hguard
      exact ⟨hclosed, hsegs, hlength, hroom, (Option.some.inj hstep).symm⟩
  next => cases hstep

theorem rxMachine_receive {n : ℕ} (hstep : rxMachine.step s (.receive n) = some t) :
    s.closed = false ∧ s.held = none ∧
      ((s.toRxClient.ipaugenblickReceive n).1 = none →
        t = { s with toRxClient := (s.toRxClient.ipaugenblickReceive n).2 }) ∧
      ∀ got, (s.toRxClient.ipaugenblickReceive n).1 = some got →
        t = { s with
          toRxClient := (s.toRxClient.ipaugenblickReceive n).2
          held := some got.pdesc
          read := s.read ++ (s.toRxClient.ipaugenblickReceive n).2.mem.chainBytes
            (s.toRxClient.ipaugenblickReceive n).2.mem.size (some got.pdesc)
          receives := (n, ((s.toRxClient.ipaugenblickReceive n).2.mem.chainBytes
            (s.toRxClient.ipaugenblickReceive n).2.mem.size (some got.pdesc)).length) ::
              s.receives } := by
  simp only [rxMachine] at hstep
  split at hstep
  next hguard =>
      refine ⟨hguard.1, hguard.2, ?_⟩
      obtain ⟨result, c, hc⟩ : ∃ result c, s.toRxClient.ipaugenblickReceive n = (result, c) :=
        ⟨_, _, rfl⟩
      rw [hc] at hstep ⊢
      cases result with
      | none => exact ⟨fun _ => (Option.some.inj hstep).symm, fun _ h => nomatch h⟩
      | some got =>
          refine ⟨(nomatch ·), fun got' h => ?_⟩
          obtain rfl := Option.some.inj h
          exact (Option.some.inj hstep).symm
  next => cases hstep

theorem rxMachine_release (hstep : rxMachine.step s .release = some t) :
    ∃ pdesc, s.held = some pdesc ∧
      t = { s with
        toRxClient := s.toRxClient.ipaugenblickReleaseRxBuffer pdesc
        held := none } := by
  simp only [rxMachine] at hstep
  split at hstep
  next pdesc hheld => exact ⟨pdesc, hheld, (Option.some.inj hstep).symm⟩
  next => cases hstep

theorem rxMachine_close {gotCommand : Bool}
    (hstep : rxMachine.step s (.close gotCommand) = some t) :
    s.closed = false ∧ s.held = none ∧
      t = if gotCommand then
          { s with toRxClient := s.toRxClient.ipaugenblickFlushRx, closed := true }
        else s := by
  simp only [rxMachine] at hstep
  split at hstep
  next hguard =>
      refine ⟨hguard.1, hguard.2, ?_⟩
      cases gotCommand with
      | true => exact (Option.some.inj hstep).symm
      | false => exact (Option.some.inj hstep).symm
  next => cases hstep

end Inversion

end IpAugenblick
