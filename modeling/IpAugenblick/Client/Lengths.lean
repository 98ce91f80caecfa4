/-
# The lengths a receive reports

`ipaugenblick_receive` reports the length of the chain it returns and the length of
its first segment.  Both are put together from what is at hand on the exit it
takes: the request, a cached `pkt_len`, or the part of a segment that was cut.
The two lengths are right when a request that ends inside a later segment delivers
as much of it as the first segment holds, when the half-delivered chain is not
empty, and when the `pkt_len` behind it covers all that is behind it.
-/

import IpAugenblick.Client.Stream

namespace IpAugenblick

open Lib

/-- A request for `n` more bytes of segments with these lengths; when it ends
inside one of them, the part of it that is delivered has length `first`. -/
def cutOk (first : ℕ) : List ℕ → ℕ → Prop
  | [], _ => True
  | l :: ls, n =>
      if l < n then cutOk first ls (n - l)
      else if l = n then True
      else n = first

/-- Whether `*first_segment_len` is right after a request for `n` bytes of a chain
with these segment lengths. -/
def firstOk : List ℕ → ℕ → Prop
  | [], _ => True
  | l :: ls, n => l < n → cutOk l ls (n - l)

/-- The segment lengths of the half-delivered chain once it is put together again. -/
def restoredLens (c : RxClient) : List ℕ :=
  c.descr.shadowLenRemainder % 65536 :: chainLens c.mem c.mem.size c.descr.shadowNext

/-- What `ipaugenblick_get_from_shadow` counts for the segments behind the shadow. -/
def countedBehind (c : RxClient) (x : ℕ) : ℕ :=
  ((c.mem.next x).map fun next => (c.mem.mbuf next).pktLen).getD 0

/-- The states and requests for which the reported lengths are right. -/
def lengthsOk (c : RxClient) (n : ℕ) : Prop :=
  match c.descr.shadow with
  | none =>
      match c.queue.head? with
      | none => True
      | some p => firstOk (chainLens c.mem c.mem.size (some p)) n
  | some x =>
      if n = 0 then countedBehind c x = (chainLens c.mem c.mem.size c.descr.shadowNext).sum
      else 0 < (restoredLens c).sum ∧ firstOk (restoredLens c) n

instance decidableCutOk (first : ℕ) : (lens : List ℕ) → (n : ℕ) → Decidable (cutOk first lens n)
  | [], _ => isTrue trivial
  | l :: ls, n =>
      have := decidableCutOk first ls (n - l)
      inferInstanceAs (Decidable
        (if l < n then cutOk first ls (n - l) else if l = n then True else n = first))

instance decidableFirstOk : (lens : List ℕ) → (n : ℕ) → Decidable (firstOk lens n)
  | [], _ => isTrue trivial
  | l :: ls, n => inferInstanceAs (Decidable (l < n → cutOk l ls (n - l)))

instance decidableLengthsOk (c : RxClient) (n : ℕ) : Decidable (lengthsOk c n) := by
  unfold lengthsOk
  exact match c.descr.shadow with
    | none =>
        match c.queue.head? with
        | none => isTrue trivial
        | some _ => inferInstance
    | some _ => inferInstance

/-- What the caller relies on: `*total_len` is the length of the chain at `*pdesc`,
`*first_segment_len` the length of its first segment and `*pbuffer` its data. -/
structure Described (M : MbufMem) (got : Received) : Prop where
  total : got.totalLen = (chainLens M M.size (some got.pdesc)).sum
  first : got.firstSegmentLen = (M.mbuf got.pdesc).dataLen
  buffer : got.pbuffer = rtePktmbufMtod M got.pdesc

/-- Whenever a request for `n` bytes succeeds, what it reports describes what it returns. -/
def lengthsMatch (c : RxClient) (n : ℕ) : Prop :=
  ∀ got, (c.ipaugenblickReceive n).1 = some got → Described (c.ipaugenblickReceive n).2.mem got

/-! ## Where a request ends -/

section Cut

variable {first l n : ℕ} {ls : List ℕ}

theorem cutOk_inside {as : List ℕ} (hlow : as.sum < n) (hhigh : n < as.sum + l) :
    cutOk first (as ++ l :: ls) n ↔ n - as.sum = first := by
  induction as generalizing n with
  | nil =>
      rw [List.sum_nil, Nat.zero_add] at hhigh
      rw [List.nil_append, cutOk, if_neg (by omega), if_neg (by omega), List.sum_nil, Nat.sub_zero]
  | cons a as ih =>
      rw [List.sum_cons] at hlow hhigh
      rw [List.cons_append, cutOk, if_pos (by omega), ih (by omega) (by omega), List.sum_cons,
        Nat.sub_sub]

theorem cutOk_edge {as : List ℕ} (hlow : as.sum < n) (hend : as.sum + l = n) :
    cutOk first (as ++ l :: ls) n := by
  induction as generalizing n with
  | nil =>
      rw [List.sum_nil, Nat.zero_add] at hend
      rw [List.nil_append, cutOk, if_neg (by omega), if_pos hend]
      trivial
  | cons a as ih =>
      rw [List.sum_cons] at hlow hend
      rw [List.cons_append, cutOk, if_pos (by omega)]
      exact ih (by omega) (by omega)

theorem cutOk_usedUp {as : List ℕ} (hsum : as.sum < n) : cutOk first as n := by
  induction as generalizing n with
  | nil => trivial
  | cons a as ih =>
      rw [List.sum_cons] at hsum
      rw [cutOk, if_pos (by omega)]
      exact ih (by omega)

theorem firstOk_usedUp {as : List ℕ} (hsum : as.sum < n) : firstOk as n := by
  cases as with
  | nil => trivial
  | cons a as =>
      rw [List.sum_cons] at hsum
      exact fun _ => cutOk_usedUp (by omega)

end Cut

/-! ## A bounded read -/

/-- What a bounded read of the chain `ids` reports about the part `out` that is
handed out. -/
structure ReadLengths (M : MbufMem) (mbuf n : ℕ) (ids : List ℕ) (r : ExactRead)
    (out : List ℕ) : Prop where
  linked : Linked r.mem.next (some mbuf) out
  sub : out.Sublist ids
  total : r.totalLen = (lensOf r.mem out).sum
  first : r.firstSegmentLen = (r.mem.mbuf mbuf).dataLen ↔ firstOk (lensOf M ids) n

section Reading

variable {M : MbufMem} {mbuf n : ℕ} {ids : List ℕ}

/-- Cut inside the segment `x`: what is reported as the first segment is the part
delivered of the last one. -/
theorem readLengths_inside {pre post : List ℕ} {x : ℕ}
    (hlinked : Linked M.next (some mbuf) (pre ++ x :: post))
    (hshort : ∀ i, (M.mbuf i).dataLen < 65536) (hlow : (lensOf M pre).sum < n)
    (hhigh : n < (lensOf M pre).sum + (M.mbuf x).dataLen) {r : ExactRead}
    (htotal : r.totalLen = n)
    (hmem : r.mem = (M.setDataLen x (n - (lensOf M pre).sum)).setNext x none)
    (hfirst : r.firstSegmentLen = n - (lensOf M pre).sum) :
    ReadLengths M mbuf n (pre ++ x :: post) r (pre ++ [x]) := by
  have hx : x ∉ pre := by
    have hnodup := hlinked.nodup
    rw [List.nodup_append] at hnodup
    exact fun hmem => hnodup.2.2 x hmem x (by simp) rfl
  have hlen : (n - (lensOf M pre).sum) % 65536 = n - (lensOf M pre).sum := by
    apply Nat.mod_eq_of_lt
    have hxshort := hshort x
    omega
  have hself : (r.mem.mbuf x).dataLen = n - (lensOf M pre).sum := by
    rw [hmem, MbufMem.setNext, MbufMem.modify_self, MbufMem.setDataLen, MbufMem.modify_self, hlen]
  have hother : ∀ i, i ≠ x → r.mem.mbuf i = M.mbuf i := by
    intro i hi
    rw [hmem, setNext_mbuf_of_ne _ _ hi, MbufMem.setDataLen, MbufMem.modify_of_ne _ _ hi]
  have hpre : lensOf r.mem pre = lensOf M pre := by
    apply lensOf_congr
    intro i hi
    rw [hother i fun heq => hx (heq ▸ hi)]
  exact
    { linked := by
        have hnext : r.mem.next = Function.update M.next x none := by
          rw [hmem, MbufMem.next_setNext]
          congr 1
          exact M.next_modify x rfl
        rw [hnext]
        exact hlinked.cut
      sub := List.Sublist.append_left (by simp) pre
      total := by
        rw [htotal, lensOf_append, hpre, lensOf_cons, hself, List.sum_append, List.sum_cons,
          lensOf_nil, List.sum_nil]
        omega
      first := by
        rw [hfirst]
        cases pre with
        | nil =>
            obtain rfl : mbuf = x := Option.some.inj hlinked.1
            rw [List.nil_append, lensOf_cons, firstOk, hself]
            have hfew : ¬ (M.mbuf mbuf).dataLen < n := by
              rw [lensOf_nil, List.sum_nil] at hhigh
              omega
            exact ⟨fun _ hless => absurd hless hfew, fun _ => rfl⟩
        | cons y pre =>
            obtain rfl : mbuf = y := Option.some.inj hlinked.1
            have hne : mbuf ≠ x := fun heq => hx (by simp [heq])
            rw [lensOf_cons, List.sum_cons] at hlow hhigh
            rw [hother mbuf hne, List.cons_append, lensOf_cons, lensOf_cons, List.sum_cons,
              firstOk, lensOf_append, lensOf_cons, ← Nat.sub_sub]
            have hcut : cutOk (M.mbuf mbuf).dataLen
                (lensOf M pre ++ (M.mbuf x).dataLen :: lensOf M post)
                (n - (M.mbuf mbuf).dataLen) ↔
                  n - (M.mbuf mbuf).dataLen - (lensOf M pre).sum = (M.mbuf mbuf).dataLen :=
              cutOk_inside (by omega) (by omega)
            rw [hcut]
            exact ⟨fun h _ => h, fun h => h (by omega)⟩ }

/-- The request ends with the segment `x`. -/
theorem readLengths_edge {pre post : List ℕ} {x : ℕ}
    (hlinked : Linked M.next (some mbuf) (pre ++ x :: post))
    (hlow : (lensOf M pre).sum < n) (hsum : (lensOf M pre).sum + (M.mbuf x).dataLen = n)
    {r : ExactRead} (htotal : r.totalLen = n) (hmem : r.mem = M.setNext x none)
    (hfirst : r.firstSegmentLen = (M.mbuf mbuf).dataLen) :
    ReadLengths M mbuf n (pre ++ x :: post) r (pre ++ [x]) := by
  have hlens : ∀ i, (r.mem.mbuf i).dataLen = (M.mbuf i).dataLen := by
    intro i
    rw [hmem]
    exact MbufMem.dataLen_congr (M.cores_setNext x none) i
  exact
    { linked := by
        rw [hmem, MbufMem.next_setNext]
        exact hlinked.cut
      sub := List.Sublist.append_left (by simp) pre
      total := by
        rw [htotal, lensOf_congr fun i _ => hlens i, lensOf_append, List.sum_append, lensOf_cons,
          List.sum_cons, lensOf_nil, List.sum_nil]
        exact hsum.symm
      first := by
        rw [hfirst, hlens]
        refine ⟨fun _ => ?_, fun _ => rfl⟩
        cases pre with
        | nil =>
            rw [lensOf_nil, List.sum_nil] at hsum
            rw [List.nil_append, lensOf_cons]
            intro hless
            omega
        | cons y pre =>
            rw [lensOf_cons, List.sum_cons] at hlow hsum
            rw [List.cons_append, lensOf_cons, lensOf_append, lensOf_cons]
            intro hless
            exact cutOk_edge (by omega) (by omega) }

/-- **Lengths of a bounded read.**  The total is always right, the length of the
first segment only when `firstOk` holds. -/
theorem ipaugenblickTryReadExactAmount_lengths (descr : Shadow)
    (hlinked : Linked M.next (some mbuf) ids) (hsize : ids.length ≤ M.size)
    (hshort : ∀ i, (M.mbuf i).dataLen < 65536) (hn : 0 < n) :
    ∃ out, ReadLengths M mbuf n ids (ipaugenblickTryReadExactAmount M descr mbuf n) out := by
  rcases ipaugenblickTryReadExactAmount_cases M descr hlinked hsize hn with
    ⟨hsum, hmem, -, htotal, hfirst⟩ | ⟨pre, x, post, rfl, htotal, hcut⟩
  · refine ⟨ids, ?_, List.Sublist.refl _, ?_, ?_⟩
    · rw [hmem]
      exact hlinked
    · rw [htotal, hmem]
    · rw [hfirst, hmem]
      exact ⟨fun _ => firstOk_usedUp hsum, fun _ => rfl⟩
  · rcases hcut with ⟨hlow, hhigh, hmem, -, hfirst⟩ | ⟨hlow, hsum, hmem, -, hfirst⟩
    · exact ⟨pre ++ [x], readLengths_inside hlinked hshort hlow hhigh htotal hmem hfirst⟩
    · exact ⟨pre ++ [x], readLengths_edge hlinked hlow hsum htotal hmem hfirst⟩

end Reading

/-! ## The lengths of one receive -/

/-- The head of every waiting chain counts the bytes of the chain. -/
def Counted (c : RxClient) : Prop :=
  ∀ p ∈ c.queue, ∀ ids, Linked c.mem.next (some p) ids →
    (c.mem.mbuf p).pktLen = (lensOf c.mem ids).sum

/-- The head of a chain is one of its buffers. -/
theorem head_mem_of_linked {next : ℕ → Option ℕ} {p : ℕ} {ids : List ℕ}
    (hlinked : Linked next (some p) ids) : p ∈ ids := by
  cases ids with
  | nil => simp at hlinked
  | cons q ids => simp [Option.some.inj hlinked.1]

/-- A count survives as long as the buffers of its chain do. -/
theorem Counted.kept {c : RxClient} (h : Counted c) {M : MbufMem} {p : ℕ} {ids : List ℕ}
    (hp : p ∈ c.queue) (hlinked : Linked M.next (some p) ids)
    (hsame : ∀ i ∈ ids, M.mbuf i = c.mem.mbuf i) :
    (M.mbuf p).pktLen = (lensOf M ids).sum := by
  have hbefore : Linked c.mem.next (some p) ids := by
    refine hlinked.congr fun i hi => ?_
    simp only [MbufMem.next, hsame i hi]
  have hlens : lensOf M ids = lensOf c.mem ids := lensOf_congr fun i hi => by rw [hsame i hi]
  rw [hsame p (head_mem_of_linked hlinked), h p hp ids hbefore, hlens]

/-- Along a known chain, the walk of the caller is a sum over its buffers. -/
theorem described_iff {M : MbufMem} {got : Received} {ids : List ℕ}
    (hlinked : Linked M.next (some got.pdesc) ids) (hsize : ids.length ≤ M.size) :
    Described M got ↔ got.totalLen = (lensOf M ids).sum ∧
      got.firstSegmentLen = (M.mbuf got.pdesc).dataLen ∧
      got.pbuffer = rtePktmbufMtod M got.pdesc := by
  have hlens := chainLens_eq_lensOf M hlinked hsize
  constructor
  · intro h
    exact ⟨by rw [h.total, hlens], h.first, h.buffer⟩
  · rintro ⟨htotal, hfirst, hbuffer⟩
    exact ⟨by rw [htotal, hlens], hfirst, hbuffer⟩

/-- Linking the last segment of a chain to another chain. -/
theorem linked_setNext_lastseg {M : MbufMem} {first : ℕ} {ids out : List ℕ} {q : Option ℕ}
    (hids : Linked M.next (some first) ids) (hsize : ids.length ≤ M.size)
    (hout : Linked M.next q out) (hdisjoint : ∀ i ∈ ids, i ∉ out) :
    Linked (M.setNext (rtePktmbufLastseg M M.size first) q).next (some first) (ids ++ out) := by
  obtain ⟨pre, last, rfl⟩ : ∃ pre last, ids = pre ++ [last] := by
    rcases List.eq_nil_or_concat ids with rfl | ⟨pre, last, rfl⟩
    · simp at hids
    · exact ⟨pre, last, by simp⟩
  have hlast : rtePktmbufLastseg M M.size first = last := by
    apply rtePktmbufLastseg_eq _ hids
    simp only [List.length_append, List.length_singleton] at hsize
    omega
  rw [hlast, MbufMem.next_setNext, List.append_assoc]
  exact hids.append hout (hdisjoint last (by simp))

theorem pktLen_modify (M : MbufMem) (i : ℕ) {f : Mbuf → Mbuf}
    (hf : ∀ m, (f m).pktLen = m.pktLen) (j : ℕ) :
    ((M.modify i f).mbuf j).pktLen = (M.mbuf j).pktLen := by
  by_cases h : j = i
  · rw [h, MbufMem.modify_self, hf]
  · rw [M.modify_of_ne f h]

theorem pktLen_setNext (M : MbufMem) (i : ℕ) (p : Option ℕ) (j : ℕ) :
    ((M.setNext i p).mbuf j).pktLen = (M.mbuf j).pktLen := by
  apply pktLen_modify
  exact fun _ => rfl

/-- The `pkt_len` of the restored segment: its own length and what was counted
behind it before it was linked again. -/
theorem pktLen_restoreShadow (M : MbufMem) (descr : Shadow) (x : ℕ) :
    ((RxClient.restoreShadow M descr x).mbuf x).pktLen = descr.shadowLenRemainder % 65536 +
      ((M.next x).map fun next => (M.mbuf next).pktLen).getD 0 := by
  obtain ⟨N, hN⟩ : ∃ N, (M.setDataLen x descr.shadowLenRemainder).modify x (fun m =>
      { m with dataOff := m.dataOff + descr.shadowLenDelievered }) = N := ⟨_, rfl⟩
  have hnext : N.next = M.next := by
    rw [← hN, MbufMem.next_modify _ _ rfl]
    exact M.next_modify x rfl
  have hcount : ∀ i, (N.mbuf i).pktLen = (M.mbuf i).pktLen := by
    intro i
    rw [← hN, pktLen_modify, MbufMem.setDataLen, pktLen_modify]
    · exact fun _ => rfl
    · exact fun _ => rfl
  have hlen : (N.mbuf x).dataLen = descr.shadowLenRemainder % 65536 := by
    rw [← hN, MbufMem.modify_self, MbufMem.setDataLen, MbufMem.modify_self]
  simp only [RxClient.restoreShadow, MbufMem.setNext, MbufMem.modify_self, hN, hnext, hcount, hlen]

section Receive

variable {c : RxClient} {n : ℕ} {chains : List (List ℕ)}

/-- Without a half-delivered chain, the next chain of the queue decides. -/
theorem lengthsOk_queue {p : ℕ} {ids : List ℕ} (hshadow : c.descr.shadow = none)
    (hhead : c.queue.head? = some p) (hlinked : Linked c.mem.next (some p) ids)
    (hsize : ids.length ≤ c.mem.size) : lengthsOk c n ↔ firstOk (lensOf c.mem ids) n := by
  unfold lengthsOk
  rw [hshadow]
  simp only [hhead, chainLens_eq_lensOf c.mem hlinked hsize]

/-- With nothing waiting, nothing is reported. -/
theorem lengthsMatch_nothing (hshadow : c.descr.shadow = none) (hqueue : c.queue = []) (n : ℕ) :
    lengthsMatch c n ↔ lengthsOk c n := by
  have hget : c.ipaugenblickGetFromShadow = (none, c) := by
    unfold RxClient.ipaugenblickGetFromShadow
    rw [hshadow]
  obtain ⟨first, d, hdequeue⟩ : ∃ first d, c.ipaugenblickDequeueRxBuf = (first, d) :=
    ⟨_, _, rfl⟩
  have hhead := c.ipaugenblickDequeueRxBuf_spec.1
  rw [hdequeue, hqueue] at hhead
  obtain rfl : first = none := hhead
  have hreceive : c.ipaugenblickReceive n = (none, d) := by
    simp only [RxClient.ipaugenblickReceive, hget, hdequeue]
  unfold lengthsMatch lengthsOk
  rw [hreceive, hshadow]
  simp only [hqueue, List.head?_nil, iff_true]
  intro got hgot
  cases hgot

theorem lengthsMatch_queue (h : Chains c [] chains) (hcounted : Counted c) (n : ℕ) :
    lengthsMatch c n ↔ lengthsOk c n := by
  have hnone := h.pending
  have hshadow : c.ipaugenblickGetFromShadow = (none, c) := by
    unfold RxClient.ipaugenblickGetFromShadow
    rw [hnone.1]
  have hhead := c.ipaugenblickDequeueRxBuf_spec.1
  rcases dequeue_cases h.queued with
    ⟨-, rfl, -⟩ | ⟨p, ids, rest, d, rfl, hdequeue, hlinked, -, hmem, hdescr⟩
  · exact lengthsMatch_nothing hnone.1 (List.forall₂_nil_right_iff.mp h.queued) n
  · rw [hdequeue] at hhead
    have hsize : ids.length ≤ c.mem.size := by
      apply h.length_le
      exact List.sublist_append_left _ _
    rw [lengthsOk_queue hnone.1 hhead.symm hlinked hsize]
    by_cases hn : 0 < n
    · obtain ⟨out, hout⟩ :=
        ipaugenblickTryReadExactAmount_lengths c.descr hlinked hsize h.short hn
      obtain ⟨own, tail, pend, hread⟩ :=
        ipaugenblickTryReadExactAmount_spec hlinked hsize h.short hn hnone
      obtain ⟨r, hr⟩ : ∃ r, ipaugenblickTryReadExactAmount c.mem c.descr p n = r := ⟨_, rfl⟩
      rw [hr] at hout hread
      have hreceive : c.ipaugenblickReceive n =
          (some ⟨p, rtePktmbufMtod r.mem p, r.totalLen, r.firstSegmentLen⟩,
            { d with mem := r.mem, descr := r.descr }) := by
        simp only [RxClient.ipaugenblickReceive, hshadow, hdequeue, if_pos hn, hmem, hdescr, hr]
      have houtSize : out.length ≤ r.mem.size := by
        rw [hread.size]
        exact Nat.le_trans hout.sub.length_le hsize
      unfold lengthsMatch
      rw [hreceive]
      simp only [Option.some.injEq, forall_eq']
      rw [described_iff hout.linked houtSize, ← hout.first]
      exact ⟨fun hall => hall.2.1, fun hfirst => ⟨hout.total, hfirst, rfl⟩⟩
    · obtain rfl : n = 0 := by omega
      have hreceive : c.ipaugenblickReceive 0 =
          (some ⟨p, rtePktmbufMtod d.mem p, (d.mem.mbuf p).pktLen, (d.mem.mbuf p).dataLen⟩, d) := by
        simp only [RxClient.ipaugenblickReceive, hshadow, hdequeue, Nat.lt_irrefl, if_false]
      have hcount := hcounted p (List.mem_of_mem_head? hhead.symm) ids hlinked
      have hok : firstOk (lensOf c.mem ids) 0 := by
        cases ids with
        | nil => trivial
        | cons i ids => exact fun hless => absurd hless (Nat.not_lt_zero _)
      unfold lengthsMatch
      rw [hreceive, hmem]
      simp only [Option.some.injEq, forall_eq']
      rw [described_iff hlinked hsize]
      exact ⟨fun _ => hok, fun _ => ⟨hcount, rfl, rfl⟩⟩

/-- With a half-delivered chain, the restored chain decides. -/
theorem lengthsOk_shadow {x : ℕ} {rest : List ℕ} (hshadow : c.descr.shadow = some x)
    (hlinked : Linked c.mem.next c.descr.shadowNext rest) (hsize : rest.length ≤ c.mem.size) :
    lengthsOk c n ↔
      if n = 0 then countedBehind c x = (lensOf c.mem rest).sum
      else 0 < (c.descr.shadowLenRemainder % 65536 :: lensOf c.mem rest).sum ∧
        firstOk (c.descr.shadowLenRemainder % 65536 :: lensOf c.mem rest) n := by
  unfold lengthsOk restoredLens
  rw [hshadow]
  simp only [chainLens_eq_lensOf c.mem hlinked hsize]

section Shadow

variable {d : RxClient} {x : ℕ} {rest : List ℕ}

/-- A request of no particular size: the count of the restored segment and of the
next chain. -/
theorem lengthsMatch_shadow_any (hback : FromShadow c x rest d)
    (hget : c.ipaugenblickGetFromShadow = (some x, d)) (h : Chains c (x :: rest) chains)
    (hqueued : List.Forall₂ (fun p ids => Linked d.mem.next (some p) ids) d.queue chains)
    (hcounted : Counted c)
    (hpktLen : (d.mem.mbuf x).pktLen = c.descr.shadowLenRemainder % 65536 + countedBehind c x) :
    lengthsMatch c 0 ↔ countedBehind c x = (lensOf c.mem rest).sum := by
  have hsize := hback.length_le h
  have hdisjoint := (List.nodup_append.mp h.nodup).2.2
  have hsum : (lensOf d.mem (x :: rest)).sum =
      c.descr.shadowLenRemainder % 65536 + (lensOf c.mem rest).sum := by
    rw [hback.lens, List.sum_cons]
  have hhead := d.ipaugenblickDequeueRxBuf_spec.1
  rcases dequeue_cases hqueued with
    ⟨e, rfl, hdequeue, -, hmem, -⟩ |
      ⟨p, ids, chains', e, rfl, hdequeue, hlinked, -, hmem, -⟩
  · obtain ⟨N, hN⟩ : ∃ N, d.mem.setNext (rtePktmbufLastseg d.mem d.mem.size x) none = N :=
      ⟨_, rfl⟩
    have hreceive : c.ipaugenblickReceive 0 =
        (some ⟨x, rtePktmbufMtod N x, (N.mbuf x).pktLen, (N.mbuf x).dataLen⟩,
          { e with mem := N }) := by
      simp only [RxClient.ipaugenblickReceive, hget, hdequeue, Nat.lt_irrefl, if_false, hmem, hN]
    have hchain : Linked N.next (some x) (x :: rest ++ []) := by
      rw [← hN]
      exact linked_setNext_lastseg hback.linked hsize (Linked.nil_iff.mpr rfl)
        fun _ _ => List.not_mem_nil
    have hcount : (N.mbuf x).pktLen = (d.mem.mbuf x).pktLen := by
      rw [← hN]
      exact pktLen_setNext _ _ _ _
    have hlens : lensOf N (x :: rest ++ []) = lensOf d.mem (x :: rest) := by
      rw [List.append_nil, ← hN]
      exact lensOf_congr fun i _ => MbufMem.dataLen_congr (MbufMem.cores_setNext _ _ _) i
    unfold lengthsMatch
    rw [hreceive]
    simp only [Option.some.injEq, forall_eq']
    rw [described_iff hchain (by rw [List.append_nil, ← hN]; exact hsize), hlens, hsum]
    dsimp only
    rw [hcount, hpktLen, Nat.add_left_cancel_iff]
    simp only [and_true]
  · have hp : p ∈ c.queue := by
      rw [hdequeue] at hhead
      rw [← hback.queue]
      exact List.mem_of_mem_head? hhead.symm
    have hout : ∀ i ∈ ids, i ∈ (ids :: chains').flatten := fun i hi => by simp [hi]
    have hidsCount : (d.mem.mbuf p).pktLen = (lensOf d.mem ids).sum := by
      apply hcounted.kept hp hlinked
      intro i hi
      exact hback.others i fun heq => hdisjoint x (by simp) i (hout i hi) heq.symm
    obtain ⟨N, hN⟩ : ∃ N, d.mem.setNext (rtePktmbufLastseg d.mem d.mem.size x) (some p) = N :=
      ⟨_, rfl⟩
    obtain ⟨K, hK⟩ : ∃ K, (N.modify x fun m =>
        { m with pktLen := m.pktLen + (N.mbuf p).pktLen }) = K := ⟨_, rfl⟩
    have hreceive : c.ipaugenblickReceive 0 =
        (some ⟨x, rtePktmbufMtod K x, (K.mbuf x).pktLen, (K.mbuf x).dataLen⟩,
          { e with mem := K }) := by
      simp only [RxClient.ipaugenblickReceive, hget, hdequeue, Nat.lt_irrefl, if_false, hmem, hN,
        hK]
    have hchain : Linked K.next (some x) (x :: rest ++ ids) := by
      have hnext : K.next = N.next := by
        rw [← hK]
        exact MbufMem.next_modify _ _ rfl
      rw [hnext, ← hN]
      exact linked_setNext_lastseg hback.linked hsize hlinked
        fun i hi hmem => hdisjoint i hi i (hout i hmem) rfl
    have hcores : K.cores = d.mem.cores := by
      have hKN : K.cores = N.cores := by
        rw [← hK]
        exact MbufMem.cores_modify _ _ rfl
      rw [hKN, ← hN, MbufMem.cores_setNext]
    have hcount : (K.mbuf x).pktLen = (d.mem.mbuf x).pktLen + (d.mem.mbuf p).pktLen := by
      rw [← hK, MbufMem.modify_self]
      dsimp only
      rw [← hN, pktLen_setNext, pktLen_setNext]
    have hfuel : (x :: rest ++ ids).length ≤ K.size := by
      have hKsize : K.size = d.mem.size := by
        rw [← hK, ← hN]
        rfl
      rw [hKsize, hback.size]
      apply h.length_le
      rw [List.flatten_cons, ← List.append_assoc]
      exact List.sublist_append_left _ _
    unfold lengthsMatch
    rw [hreceive]
    simp only [Option.some.injEq, forall_eq']
    rw [described_iff hchain hfuel, lensOf_congr fun i _ => MbufMem.dataLen_congr hcores i,
      lensOf_append, List.sum_append, hsum]
    dsimp only
    rw [hcount, hpktLen, hidsCount, Nat.add_right_cancel_iff, Nat.add_left_cancel_iff]
    simp only [and_true]

/-- A request for `n` bytes: the total is wrong only when the restored chain is
empty, the first length when the cut is in a later segment. -/
theorem lengthsMatch_shadow_exact (hback : FromShadow c x rest d)
    (hget : c.ipaugenblickGetFromShadow = (some x, d)) (h : Chains c (x :: rest) chains)
    (hqueued : List.Forall₂ (fun p ids => Linked d.mem.next (some p) ids) d.queue chains)
    (hn : 0 < n) :
    lengthsMatch c n ↔
      0 < (lensOf d.mem (x :: rest)).sum ∧ firstOk (lensOf d.mem (x :: rest)) n := by
  have hnone := hback.noShadow
  have hrange := hback.inRange h
  have hsize := hback.length_le h
  have hdisjoint := (List.nodup_append.mp h.nodup).2.2
  obtain ⟨out, hout⟩ :=
    ipaugenblickTryReadExactAmount_lengths d.descr hback.linked hsize hback.short hn
  obtain ⟨own, tail, pend, hread⟩ :=
    ipaugenblickTryReadExactAmount_spec hback.linked hsize hback.short hn hnone
  obtain ⟨first, hfirst⟩ : ∃ first, ipaugenblickTryReadExactAmount d.mem d.descr x n = first :=
    ⟨_, rfl⟩
  rw [hfirst] at hout hread
  have htotal := hread.total
  by_cases hless : 0 < first.totalLen ∧ first.totalLen < n
  · have hsum : (lensOf d.mem (x :: rest)).sum < n := by omega
    obtain ⟨-, -, -, hfmem, hfdescr⟩ := hread.usedUp hsum
    have hlen : first.firstSegmentLen = (d.mem.mbuf x).dataLen := by
      rw [← hfmem]
      exact hout.first.mpr (firstOk_usedUp hsum)
    have hsame : { d with mem := first.mem, descr := first.descr } = d := by
      rw [hfmem, hfdescr]
    have hright : 0 < (lensOf d.mem (x :: rest)).sum ∧ firstOk (lensOf d.mem (x :: rest)) n :=
      ⟨by omega, firstOk_usedUp hsum⟩
    refine ⟨fun _ => hright, fun _ => ?_⟩
    rcases dequeue_cases hqueued with
      ⟨e, rfl, hdequeue, -, hmem, -⟩ |
        ⟨p, ids, chains', e, rfl, hdequeue, hlinked, -, hmem, hdescr⟩
    · have hreceive : c.ipaugenblickReceive n =
          (some ⟨x, rtePktmbufMtod d.mem x, first.totalLen, first.firstSegmentLen⟩, e) := by
        simp only [RxClient.ipaugenblickReceive, hget, if_pos hn, hfirst, if_pos hless, hsame,
          hdequeue]
        rw [hfmem]
      unfold lengthsMatch
      rw [hreceive, hmem]
      simp only [Option.some.injEq, forall_eq']
      rw [described_iff hback.linked hsize]
      exact ⟨by dsimp only; omega, hlen, rfl⟩
    · have hpos : 0 < n - first.totalLen := by omega
      have hidsSub : ∀ i ∈ ids, i ∈ (ids :: chains').flatten := fun i hi => by simp [hi]
      have hidsSize : ids.length ≤ d.mem.size := by
        rw [hback.size]
        apply h.length_le
        rw [List.flatten_cons]
        exact (List.sublist_append_left _ _).trans (List.sublist_append_right _ _)
      obtain ⟨out2, hout2⟩ :=
        ipaugenblickTryReadExactAmount_lengths d.descr hlinked hidsSize hback.short hpos
      obtain ⟨own2, tail2, pend2, hread2⟩ :=
        ipaugenblickTryReadExactAmount_spec hlinked hidsSize hback.short hpos hnone
      obtain ⟨second, hsecond⟩ : ∃ second,
          ipaugenblickTryReadExactAmount d.mem d.descr p (n - first.totalLen) = second := ⟨_, rfl⟩
      rw [hsecond] at hout2 hread2
      have hkept : ∀ i ∈ x :: rest, second.mem.mbuf i = d.mem.mbuf i := by
        intro i hi
        exact hread2.others i fun hmem => hdisjoint i hi i (hidsSub i hmem) rfl
      obtain ⟨N, hN⟩ : ∃ N, second.mem.setNext
          (rtePktmbufLastseg second.mem second.mem.size x) (some p) = N := ⟨_, rfl⟩
      have hreceive : c.ipaugenblickReceive n =
          (some ⟨x, rtePktmbufMtod d.mem x, first.totalLen + second.totalLen,
              first.firstSegmentLen⟩,
            { e with mem := N, descr := second.descr }) := by
        simp only [RxClient.ipaugenblickReceive, hget, if_pos hn, hfirst, if_pos hless, hsame,
          hdequeue, hmem, hdescr, hsecond, hN]
        rw [hfmem]
      have hchain : Linked N.next (some x) (x :: rest ++ out2) := by
        rw [← hN]
        refine linked_setNext_lastseg (hback.linked.congr fun i hi => ?_)
          (by rw [hread2.size]; exact hsize) hout2.linked fun i hi hmem => ?_
        · simp only [MbufMem.next, hkept i hi]
        · exact hdisjoint i hi i (hidsSub i (hout2.sub.subset hmem)) rfl
      have hcores : N.cores = second.mem.cores := by rw [← hN, MbufMem.cores_setNext]
      have hhead : (N.mbuf x).core = (d.mem.mbuf x).core := by
        have hcore := congrFun hcores x
        rw [MbufMem.cores, MbufMem.cores, hkept x (by simp)] at hcore
        exact hcore
      have hlens : lensOf second.mem (x :: rest) = lensOf d.mem (x :: rest) :=
        lensOf_congr fun i hi => by rw [hkept i hi]
      have hfuel : (x :: rest ++ out2).length ≤ N.size := by
        have hNsize : N.size = d.mem.size := by
          rw [← hN, ← hread2.size]
          rfl
        rw [hNsize, hback.size]
        apply h.length_le
        rw [List.flatten_cons]
        exact (hout2.sub.trans (List.sublist_append_left _ _)).append_left _
      unfold lengthsMatch
      rw [hreceive]
      simp only [Option.some.injEq, forall_eq']
      rw [described_iff hchain hfuel, lensOf_congr fun i _ => MbufMem.dataLen_congr hcores i,
        lensOf_append, List.sum_append, hlens, ← hout2.total]
      refine ⟨by dsimp only; omega, ?_, ?_⟩
      · rw [hlen]
        exact (congrArg Mbuf.dataLen hhead).symm
      · exact Prod.ext rfl (congrArg Mbuf.dataOff hhead).symm
  · have hreceive : c.ipaugenblickReceive n =
        (some ⟨x, rtePktmbufMtod first.mem x, n, first.firstSegmentLen⟩,
          { d with mem := first.mem, descr := first.descr }) := by
      simp only [RxClient.ipaugenblickReceive, hget, if_pos hn, hfirst, if_neg hless]
    have houtSize : out.length ≤ first.mem.size := by
      rw [hread.size]
      exact Nat.le_trans hout.sub.length_le hsize
    unfold lengthsMatch
    rw [hreceive]
    simp only [Option.some.injEq, forall_eq']
    rw [described_iff hout.linked houtSize, ← hout.total, ← hout.first]
    constructor
    · rintro ⟨hall, hlen, -⟩
      exact ⟨by dsimp only at hall; omega, hlen⟩
    · rintro ⟨hpos, hlen⟩
      exact ⟨by dsimp only; omega, hlen, rfl⟩

end Shadow

/-- **The lengths of one receive.** -/
theorem lengthsMatch_iff {pend : List ℕ} (h : Chains c pend chains) (hcounted : Counted c)
    (n : ℕ) : lengthsMatch c n ↔ lengthsOk c n := by
  cases pend with
  | nil => exact lengthsMatch_queue h hcounted n
  | cons x rest =>
      obtain ⟨hshadow, hlinked, -⟩ := h.pending
      have hsize : rest.length ≤ c.mem.size := by
        apply h.length_le
        exact (List.sublist_cons_self x rest).trans (List.sublist_append_left _ _)
      rw [lengthsOk_shadow hshadow hlinked hsize]
      obtain ⟨hsome, hback⟩ := ipaugenblickGetFromShadow_spec h
      have hget : c.ipaugenblickGetFromShadow = (some x, c.ipaugenblickGetFromShadow.2) :=
        Prod.ext hsome rfl
      have hpktLen : (c.ipaugenblickGetFromShadow.2.mem.mbuf x).pktLen =
          c.descr.shadowLenRemainder % 65536 + countedBehind c x := by
        unfold RxClient.ipaugenblickGetFromShadow
        rw [hshadow]
        exact pktLen_restoreShadow c.mem c.descr x
      obtain ⟨d, hd⟩ : ∃ d, c.ipaugenblickGetFromShadow.2 = d := ⟨_, rfl⟩
      rw [hd] at hback hget hpktLen
      have hqueued : List.Forall₂ (fun p ids => Linked d.mem.next (some p) ids) d.queue
          chains := by
        have hx := (List.nodup_append.mp h.nodup).2.2 x (by simp)
        rw [hback.queue]
        refine queued_congr h.queued fun i hi => ?_
        simp only [MbufMem.next, hback.others i fun heq => hx i hi heq.symm]
      by_cases hn : 0 < n
      · rw [if_neg (by omega), ← hback.lens]
        exact lengthsMatch_shadow_exact hback hget h hqueued hn
      · obtain rfl : n = 0 := by omega
        rw [if_pos rfl]
        exact lengthsMatch_shadow_any hback hget h hqueued hcounted hpktLen

end Receive

/-! ## Along a run -/

theorem queue_ipaugenblickGetFromShadow (c : RxClient) :
    c.ipaugenblickGetFromShadow.2.queue = c.queue := by
  unfold RxClient.ipaugenblickGetFromShadow
  split
  · rfl
  · rfl

/-- A receive takes at most the oldest chain of the queue. -/
theorem mem_queue_of_receive {c : RxClient} {n p : ℕ}
    (hp : p ∈ (c.ipaugenblickReceive n).2.queue) : p ∈ c.queue := by
  have hback := queue_ipaugenblickGetFromShadow c
  obtain ⟨first, d, hget⟩ : ∃ first d, c.ipaugenblickGetFromShadow = (first, d) := ⟨_, _, rfl⟩
  rw [hget] at hback
  have htaken : ∀ (e : RxClient) (taken : Option ℕ) (f : RxClient),
      e.ipaugenblickDequeueRxBuf = (taken, f) → e.queue = d.queue → p ∈ f.queue →
        p ∈ c.queue := by
    intro e taken f hdequeue he hmem
    have htail := e.ipaugenblickDequeueRxBuf_spec.2.1
    rw [hdequeue, he, hback] at htail
    rw [htail] at hmem
    exact List.mem_of_mem_tail hmem
  unfold RxClient.ipaugenblickReceive at hp
  rw [hget] at hp
  cases first with
  | none =>
      dsimp only at hp
      split at hp
      next hdequeue => exact htaken _ _ _ hdequeue rfl hp
      next hdequeue =>
          split at hp
          · exact htaken _ _ _ hdequeue rfl hp
          · exact htaken _ _ _ hdequeue rfl hp
  | some mbuf =>
      dsimp only at hp
      split at hp
      · split at hp
        · split at hp
          next hdequeue => exact htaken _ _ _ hdequeue rfl hp
          next hdequeue => exact htaken _ _ _ hdequeue rfl hp
        · rw [← hback]
          exact hp
      · exact htaken d _ _ rfl rfl hp

theorem exists_chain_of_mem {next : ℕ → Option ℕ} {queue : List ℕ} {chains : List (List ℕ)}
    (hqueued : List.Forall₂ (fun p ids => Linked next (some p) ids) queue chains) {p : ℕ}
    (hp : p ∈ queue) : ∃ ids ∈ chains, Linked next (some p) ids := by
  induction hqueued with
  | nil => cases hp
  | cons hhead _ ih =>
      rcases List.mem_cons.mp hp with rfl | hp
      · exact ⟨_, List.mem_cons_self, hhead⟩
      · obtain ⟨ids, hids, hlinked⟩ := ih hp
        exact ⟨ids, List.mem_cons_of_mem _ hids, hlinked⟩

theorem exists_head_of_mem {next : ℕ → Option ℕ} {queue : List ℕ} {chains : List (List ℕ)}
    (hqueued : List.Forall₂ (fun p ids => Linked next (some p) ids) queue chains) {ids : List ℕ}
    (hids : ids ∈ chains) : ∃ p ∈ queue, Linked next (some p) ids := by
  induction hqueued with
  | nil => cases hids
  | cons hhead _ ih =>
      rcases List.mem_cons.mp hids with rfl | hids
      · exact ⟨_, List.mem_cons_self, hhead⟩
      · obtain ⟨p, hp, hlinked⟩ := ih hids
        exact ⟨p, List.mem_cons_of_mem _ hp, hlinked⟩

/-- The counts survive as long as the buffers of the waiting chains do. -/
theorem Counted.congr {c c' : RxClient} {chains : List (List ℕ)} (h : Counted c)
    (hqueued : List.Forall₂ (fun p ids => Linked c'.mem.next (some p) ids) c'.queue chains)
    (hold : ∀ i ∈ chains.flatten, c'.mem.mbuf i = c.mem.mbuf i)
    (hqueue : ∀ p ∈ c'.queue, p ∈ c.queue) : Counted c' := by
  intro p hp ids hlinked
  obtain ⟨chain, hchain, hmine⟩ := exists_chain_of_mem hqueued hp
  obtain rfl := hlinked.unique hmine
  exact h.kept (hqueue p hp) hlinked fun i hi => hold i (List.mem_flatten.mpr ⟨ids, hchain, hi⟩)

/-- What the lengths of a receive rest on, in every state of a run. -/
structure CountsInv (s : RxState) : Prop where
  whileOpen : s.closed = false → ∃ own pend chains, Shape s own pend chains
  onceClosed : s.closed = true →
    s.held = none ∧ s.descr.shadow = none ∧ s.toRxClient.queue = []
  counted : Counted s.toRxClient

theorem CountsInv.init : CountsInv rxMachine.init where
  whileOpen := fun _ => ⟨[], [], [], Shape.init⟩
  onceClosed := fun h => by cases h
  counted := fun _ hp => by cases hp

/-- **Submit.**  The stack counts the new chain in its head. -/
theorem CountsInv.submit {s t : RxState} {segs : List (List UInt8)} (h : CountsInv s)
    (hstep : rxMachine.step s (.submit segs) = some t) : CountsInv t := by
  obtain ⟨hclosed, hsegs, hlength, hroom, ht⟩ := rxMachine_submit hstep
  obtain ⟨own, pend, chains, hshape⟩ := h.whileOpen hclosed
  have hmem : t.mem = allocChain s.mem segs := by rw [ht]
  have hshort : ∀ seg ∈ segs, seg.length < 65536 := fun seg hseg => (hlength seg hseg).2
  obtain ⟨hshape', -, -⟩ := hshape.submit hsegs hshort hroom hmem (by rw [ht]) (by rw [ht])
    (by rw [ht]) (by rw [ht])
  have hopen : t.closed = false := by
    rw [ht]
    exact hclosed
  have halloc := allocChain_spec s.mem hshort
  rw [← hmem] at halloc
  refine ⟨fun _ => ⟨_, _, _, hshape'⟩, fun hc => by simp [hopen] at hc, ?_⟩
  intro p hp ids hlinked
  obtain ⟨chain, hchain, hmine⟩ := exists_chain_of_mem hshape'.queued hp
  obtain rfl := hlinked.unique hmine
  rcases List.mem_append.mp hchain with hold | hnew
  · have hpold : p ∈ s.toRxClient.queue := by
      obtain ⟨q, hq, hqids⟩ := exists_head_of_mem hshape.queued hold
      obtain rfl : p = q := by
        cases ids with
        | nil => simp at hqids
        | cons i ids => exact (Option.some.inj hlinked.1).trans (Option.some.inj hqids.1).symm
      exact hq
    apply h.counted.kept hpold hlinked
    intro i hi
    have hflat : i ∈ chains.flatten := List.mem_flatten.mpr ⟨ids, hold, hi⟩
    exact halloc.old i (hshape.inRange (List.mem_append_right _ (List.mem_append_right _ hflat)))
  · obtain rfl := List.mem_singleton.mp hnew
    obtain rfl : p = s.mem.size := by
      have hfirst := halloc.linked
      rw [if_neg hsegs] at hfirst
      cases hids : freshIds s.mem segs.length with
      | nil =>
          rw [hids] at hfirst
          simp at hfirst
      | cons i ids =>
          rw [hids] at hfirst hlinked
          exact (Option.some.inj hlinked.1).trans (Option.some.inj hfirst.1).symm
    rw [← length_bytesOf, halloc.bytes, hmem, allocChain, MbufMem.modify_self]

/-- **Receive.**  The chains that stay in the queue are left alone. -/
theorem CountsInv.receive {s t : RxState} {n : ℕ} (h : CountsInv s)
    (hstep : rxMachine.step s (.receive n) = some t) : CountsInv t := by
  obtain ⟨hclosed, hheld, hnext⟩ := rxMachine_receive hstep
  obtain ⟨own, pend, chains, hshape⟩ := h.whileOpen hclosed
  obtain rfl := hshape.own_eq_nil hheld
  rcases ipaugenblickReceive_spec hshape.toChains n with
    ⟨hnone, rfl, rfl, hchains, hmem, -⟩ | ⟨got, own, tail, pend', chains', hgot, hread⟩
  · have hcounted : Counted (s.toRxClient.ipaugenblickReceive n).2 :=
      h.counted.congr hchains.queued (fun i hi => by cases hi) fun p hp => mem_queue_of_receive hp
    rw [hnext.1 hnone]
    exact ⟨fun _ => ⟨_, _, _, hshape.receive_none hchains hmem hheld⟩,
      fun hc => by simp [hclosed] at hc, hcounted⟩
  · have hcounted : Counted (s.toRxClient.ipaugenblickReceive n).2 :=
      h.counted.congr hread.after.queued (fun i hi => hread.waiting hshape.toChains.nodup hi)
        fun p hp => mem_queue_of_receive hp
    rw [hnext.2 got hgot]
    exact ⟨fun _ => ⟨_, _, _, hshape.receive hread rfl⟩, fun hc => by simp [hclosed] at hc,
      hcounted⟩

/-- **Release.**  Freed buffers are in no waiting chain. -/
theorem CountsInv.release {s t : RxState} (h : CountsInv s)
    (hstep : rxMachine.step s .release = some t) : CountsInv t := by
  obtain ⟨pdesc, hheld, ht⟩ := rxMachine_release hstep
  cases hclosed : s.closed with
  | true =>
      have hnone := (h.onceClosed hclosed).1
      rw [hheld] at hnone
      cases hnone
  | false =>
      obtain ⟨own, pend, chains, hshape⟩ := h.whileOpen hclosed
      obtain ⟨hshape', -, -, hmem⟩ := hshape.release hheld
        (show t.toRxClient = s.toRxClient.ipaugenblickReleaseRxBuffer pdesc by rw [ht])
        (by rw [ht])
      refine ⟨fun _ => ⟨_, _, _, hshape'⟩, fun hc => by simp [ht, hclosed] at hc, ?_⟩
      refine h.counted.congr hshape'.queued (fun i hi => hmem i (List.mem_append_right _ hi))
        fun p hp => ?_
      rw [ht] at hp
      exact hp

/-- **Close.**  After the flush nothing is waiting. -/
theorem CountsInv.close {s t : RxState} {gotCommand : Bool} (h : CountsInv s)
    (hstep : rxMachine.step s (.close gotCommand) = some t) : CountsInv t := by
  obtain ⟨hclosed, hheld, hnext⟩ := rxMachine_close hstep
  cases gotCommand with
  | false =>
      rw [hnext]
      exact h
  | true =>
      rw [hnext]
      exact
        { whileOpen := fun hopen => by cases hopen
          onceClosed := fun _ => ⟨hheld, rfl, rfl⟩
          counted := fun p hp => by cases hp }

theorem countsInv_of_reachable {s : RxState} (hreach : rxMachine.Reachable s) : CountsInv s := by
  refine rxMachine.invariant_of_step CountsInv.init ?_ hreach
  intro s a t h _ hstep
  cases a with
  | submit segs => exact h.submit hstep
  | receive n => exact h.receive hstep
  | release => exact h.release hstep
  | close gotCommand => exact h.close hstep

/-- **Reported lengths.**  In every reachable state and for every request, the
lengths and the buffer that a successful receive reports describe the chain it
returns exactly when `lengthsOk` holds. -/
theorem reported_lengths_match_iff {s : RxState} (hreach : rxMachine.Reachable s) (n : ℕ) :
    lengthsMatch s.toRxClient n ↔ lengthsOk s.toRxClient n := by
  have h := countsInv_of_reachable hreach
  cases hclosed : s.closed with
  | true =>
      obtain ⟨-, hshadow, hqueue⟩ := h.onceClosed hclosed
      exact lengthsMatch_nothing hshadow hqueue n
  | false =>
      obtain ⟨own, pend, chains, hshape⟩ := h.whileOpen hclosed
      exact lengthsMatch_iff hshape.toChains h.counted n

/-- A request that ends with the restored part of a segment. -/
theorem reported_lengths_match_iff_restored :
    ∃ s, rxMachine.Reachable s ∧ s.descr.shadow = some 0 ∧ lengthsMatch s.toRxClient 1 := by
  have hrun : (rxMachine.run [.submit [[65, 66], [67]], .receive 1, .release]).map
      (fun s => (s.descr.shadow, decide (lengthsOk s.toRxClient 1))) = some (some 0, true) := by
    decide +kernel
  obtain ⟨s, hs, hview⟩ := Option.map_eq_some_iff.mp hrun
  obtain ⟨hshadow, hok⟩ := Prod.mk.inj hview
  have hreach := rxMachine.reachable_of_run hs
  exact ⟨s, hreach, hshadow, (reported_lengths_match_iff hreach 1).mpr (of_decide_eq_true hok)⟩

/-- Four bytes of a chain of three and two: the first segment is reported with one
byte and has three.  And one byte of a restored segment whose recorded length is
zero: one byte is reported, the returned chain has none. -/
theorem reported_lengths_differ :
    (∃ s, rxMachine.run [.submit [[65, 66, 67], [68, 69]]] = some s ∧
        ¬ lengthsMatch s.toRxClient 4) ∧
      ∃ s, rxMachine.run [.submit [[65], [66]], .receive 1, .release] = some s ∧
        ¬ lengthsMatch s.toRxClient 1 := by
  constructor
  · have hrun : (rxMachine.run [.submit [[65, 66, 67], [68, 69]]]).map (fun s =>
        (s.toRxClient.ipaugenblickReceive 4).1.map fun got => (got.firstSegmentLen,
          ((s.toRxClient.ipaugenblickReceive 4).2.mem.mbuf got.pdesc).dataLen)) =
        some (some (1, 3)) := by decide +kernel
    obtain ⟨s, hs, hview⟩ := Option.map_eq_some_iff.mp hrun
    obtain ⟨got, hgot, hlens⟩ := Option.map_eq_some_iff.mp hview
    obtain ⟨hfirst, hlen⟩ := Prod.mk.inj hlens
    refine ⟨s, hs, fun hmatch => ?_⟩
    have hwrong := (hmatch got hgot).first
    omega
  · have hrun : (rxMachine.run [.submit [[65], [66]], .receive 1, .release]).map (fun s =>
        (s.toRxClient.ipaugenblickReceive 1).1.map fun got => (got.totalLen,
          (chainLens (s.toRxClient.ipaugenblickReceive 1).2.mem
            (s.toRxClient.ipaugenblickReceive 1).2.mem.size (some got.pdesc)).sum)) =
        some (some (1, 0)) := by decide +kernel
    obtain ⟨s, hs, hview⟩ := Option.map_eq_some_iff.mp hrun
    obtain ⟨got, hgot, hlens⟩ := Option.map_eq_some_iff.mp hview
    obtain ⟨htotal, hsum⟩ := Prod.mk.inj hlens
    refine ⟨s, hs, fun hmatch => ?_⟩
    have hwrong := (hmatch got hgot).total
    omega

end IpAugenblick
