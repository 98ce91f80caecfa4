/-
# Chains on the receive path

What the operations of the receive path do to the chains they work on.  A chain
that a bounded read cuts falls into the buffers the application will free and the
buffers that stay pending; a segment that is cut in the middle is read now and
pending at once.  Which buffers go where never depends on the lengths kept in the
descriptor.  Which bytes go where does, and is right as long as the read does not
end on a boundary where `ipaugenblick_try_read_exact_amount` records the wrong
length.
-/

import IpAugenblick.Client.Receive

namespace IpAugenblick

open Lib

def bytesOf (M : MbufMem) (ids : List ℕ) : List UInt8 := ids.flatMap fun i => (M.mbuf i).data

def lensOf (M : MbufMem) (ids : List ℕ) : List ℕ := ids.map fun i => (M.mbuf i).dataLen

theorem bytesOf_append (M : MbufMem) (as bs : List ℕ) :
    bytesOf M (as ++ bs) = bytesOf M as ++ bytesOf M bs := by
  simp [bytesOf]

theorem lensOf_nil (M : MbufMem) : lensOf M [] = [] := rfl

theorem lensOf_cons (M : MbufMem) (x : ℕ) (ids : List ℕ) :
    lensOf M (x :: ids) = (M.mbuf x).dataLen :: lensOf M ids := rfl

theorem lensOf_append (M : MbufMem) (as bs : List ℕ) :
    lensOf M (as ++ bs) = lensOf M as ++ lensOf M bs := by simp [lensOf]

theorem lensOf_congr {M M' : MbufMem} {ids : List ℕ}
    (h : ∀ i ∈ ids, (M'.mbuf i).dataLen = (M.mbuf i).dataLen) : lensOf M' ids = lensOf M ids :=
  List.map_congr_left h

theorem length_bytesOf (M : MbufMem) (ids : List ℕ) :
    (bytesOf M ids).length = (lensOf M ids).sum := by
  simp [bytesOf, lensOf, List.length_flatMap]

theorem bytesOf_congr {M M' : MbufMem} {ids : List ℕ}
    (h : ∀ i ∈ ids, (M'.mbuf i).data = (M.mbuf i).data) : bytesOf M' ids = bytesOf M ids :=
  List.flatMap_congr h

/-! ## The queue of chains -/

namespace RxClient

/-- The chains waiting in the cache and the ring, in the order they will be read. -/
def queue (c : RxClient) : List ℕ := c.cache.items ++ c.ring.items

/-- The refill moves chains from the ring to the cache and keeps their order. -/
theorem refill_items (ring : Ring ℕ dataRingCapacity) (cache : Ring ℕ localCacheCapacity)
    {k : ℕ} (hk : k ≤ cache.freeCount) :
    (cache.enqueueBurst (ring.dequeueBurst k).1).items ++ (ring.dequeueBurst k).2.items =
      cache.items ++ ring.items := by
  have hfit : (ring.dequeueBurst k).1.length ≤ cache.freeCount := by
    rw [Ring.dequeueBurst_fst, List.length_take]
    omega
  rw [Ring.items_enqueueBurst _ hfit, Ring.dequeueBurst_fst, Ring.items_dequeueBurst,
    List.append_assoc, List.take_append_drop]

/-- **Dequeue.**  The oldest waiting chain, if there is one; the rest stays in order. -/
theorem ipaugenblickDequeueRxBuf_spec (c : RxClient) :
    c.ipaugenblickDequeueRxBuf.1 = c.queue.head? ∧
      c.ipaugenblickDequeueRxBuf.2.queue = c.queue.tail ∧
      c.ipaugenblickDequeueRxBuf.2.mem = c.mem ∧
      c.ipaugenblickDequeueRxBuf.2.descr = c.descr := by
  unfold ipaugenblickDequeueRxBuf
  cases hfirst : c.cache.dequeue with
  | some pair =>
      obtain ⟨mbuf, cache⟩ := pair
      have hitems : c.cache.items = mbuf :: cache.items :=
        (Ring.dequeue_eq_some_iff _ _ _).mp hfirst
      have hqueue : c.queue = mbuf :: (cache.items ++ c.ring.items) := by
        rw [queue, hitems, List.cons_append]
      simp only
      by_cases hring : 0 < c.ring.count
      · rw [if_pos hring]
        refine ⟨by rw [hqueue]; rfl, ?_, rfl, rfl⟩
        rw [hqueue, List.tail_cons]
        apply refill_items
        split <;> omega
      · rw [if_neg hring]
        exact ⟨by rw [hqueue]; rfl, by rw [hqueue]; rfl, rfl, rfl⟩
  | none =>
      have hitems : c.cache.items = [] := (Ring.dequeue_eq_none_iff _).mp hfirst
      have hqueue : c.queue = c.ring.items := by rw [queue, hitems, List.nil_append]
      simp only
      by_cases hring : 0 < c.ring.count
      · have hfree : c.cache.freeCount = localCacheCapacity := by
          rw [Ring.freeCount, hitems, List.length_nil, Nat.sub_zero]
        have hburst : (if maxPktBurst < c.cache.freeCount then maxPktBurst
            else c.cache.freeCount) = 32 := by
          rw [hfree]
          rfl
        rw [if_pos hring, hburst]
        simp only
        obtain ⟨mbuf, rest, hne⟩ := List.exists_cons_of_ne_nil
          (List.ne_nil_of_length_pos hring)
        have hmoved := refill_items c.ring c.cache (show 32 ≤ c.cache.freeCount by
          rw [hfree]
          decide)
        rw [hitems, List.nil_append, hne] at hmoved
        cases hsecond : (c.cache.enqueueBurst (c.ring.dequeueBurst 32).1).dequeue with
        | none =>
            have hnone := (Ring.dequeue_eq_none_iff _).mp hsecond
            have hfit : (c.ring.dequeueBurst 32).1.length ≤ c.cache.freeCount := by
              rw [Ring.dequeueBurst_fst, List.length_take, hfree]
              exact Nat.le_trans (Nat.min_le_left _ _) (by decide)
            rw [Ring.items_enqueueBurst _ hfit, hitems, Ring.dequeueBurst_fst, hne] at hnone
            simp at hnone
        | some pair =>
            obtain ⟨got, cache⟩ := pair
            have hgot := (Ring.dequeue_eq_some_iff _ _ _).mp hsecond
            rw [hgot, List.cons_append] at hmoved
            obtain ⟨rfl, hrest⟩ := List.cons.inj hmoved
            refine ⟨by rw [hqueue, hne]; rfl, ?_, rfl, rfl⟩
            rw [hqueue, hne, List.tail_cons]
            exact hrest
      · have hempty : c.ring.items = [] := by
          rw [← List.length_eq_zero_iff]
          exact Nat.eq_zero_of_not_pos hring
        rw [if_neg hring]
        simp only [hfirst, and_true]
        refine ⟨by rw [hqueue, hempty]; rfl, ?_⟩
        rw [hqueue, hempty]
        rfl

end RxClient

/-! ## Cutting a chain -/

/-- The loop skips the segments that fit and stops at the one that does not, if
there is one. -/
theorem skipWhole_spec (M : MbufMem) {n : ℕ} {ids : List ℕ} {fuel curr : ℕ}
    {tmp : Option ℕ} (prev : Option ℕ) (hlinked : Linked M.next tmp ids) (hfuel : ids.length ≤ fuel)
    (hcurr : curr < n) :
    (curr + (lensOf M ids).sum < n ∧
        ∃ last, skipWhole M n fuel tmp prev curr = (none, last, curr + (lensOf M ids).sum)) ∨
      ∃ pre x post last, ids = pre ++ x :: post ∧ curr + (lensOf M pre).sum < n ∧
        n ≤ curr + (lensOf M pre).sum + (M.mbuf x).dataLen ∧
        skipWhole M n fuel tmp prev curr = (some x, last, curr + (lensOf M pre).sum) := by
  induction ids generalizing fuel tmp prev curr with
  | nil =>
      rw [Linked.nil_iff] at hlinked
      subst hlinked
      refine .inl ⟨by simpa [lensOf] using hcurr, prev, ?_⟩
      cases fuel <;> rfl
  | cons x ids ih =>
      obtain ⟨rfl, htail⟩ := hlinked
      cases fuel with
      | zero => simp at hfuel
      | succ fuel =>
          rw [skipWhole]
          by_cases hfits : (M.mbuf x).dataLen + curr < n
          · rw [if_pos hfits]
            have hrest := ih (some x) htail (show ids.length ≤ fuel by simpa using hfuel)
              (show curr + (M.mbuf x).dataLen < n by omega)
            rcases hrest with ⟨hsum, last, heq⟩ | ⟨pre, y, post, last, rfl, hlow, hhigh, heq⟩
            · refine .inl ⟨?_, last, ?_⟩
              · rw [lensOf_cons, List.sum_cons]
                omega
              · rw [heq, lensOf_cons, List.sum_cons, Nat.add_assoc]
            · refine .inr ⟨x :: pre, y, post, last, rfl, ?_, ?_, ?_⟩
              · rw [lensOf_cons, List.sum_cons]
                omega
              · rw [lensOf_cons, List.sum_cons]
                omega
              · rw [heq, lensOf_cons, List.sum_cons, Nat.add_assoc]
          · rw [if_neg hfits]
            exact .inr ⟨[], x, ids, prev, rfl, by simpa [lensOf] using hcurr,
              by simp [lensOf]; omega, by simp [lensOf]⟩

/-- The shadow after a read that ended with a segment. -/
def edgeShadow (M : MbufMem) (descr : Shadow) : Option ℕ → Shadow
  | none => descr
  | some rest =>
      match M.next rest with
      | none => { descr with shadow := some rest, shadowNext := none }
      | some behind =>
          { shadow := some rest
            shadowNext := some behind
            shadowLenRemainder := (M.mbuf behind).dataLen
            shadowLenDelievered := 0 }

/-- **A bounded read.**  The chain is used up, or it is cut inside a segment, or
the request ends exactly with a segment. -/
theorem ipaugenblickTryReadExactAmount_cases (M : MbufMem) (descr : Shadow) {mbuf n : ℕ}
    {ids : List ℕ} (hlinked : Linked M.next (some mbuf) ids) (hsize : ids.length ≤ M.size)
    (hn : 0 < n) :
    ((lensOf M ids).sum < n ∧ (ipaugenblickTryReadExactAmount M descr mbuf n).mem = M ∧
        (ipaugenblickTryReadExactAmount M descr mbuf n).descr = descr ∧
        (ipaugenblickTryReadExactAmount M descr mbuf n).totalLen = (lensOf M ids).sum ∧
        (ipaugenblickTryReadExactAmount M descr mbuf n).firstSegmentLen =
          (M.mbuf mbuf).dataLen) ∨
      ∃ pre x post, ids = pre ++ x :: post ∧
        (ipaugenblickTryReadExactAmount M descr mbuf n).totalLen = n ∧
        ((lensOf M pre).sum < n ∧ n < (lensOf M pre).sum + (M.mbuf x).dataLen ∧
            (ipaugenblickTryReadExactAmount M descr mbuf n).mem =
              (M.setDataLen x (n - (lensOf M pre).sum)).setNext x none ∧
            (ipaugenblickTryReadExactAmount M descr mbuf n).descr =
              { shadow := some x, shadowNext := M.next x
                shadowLenRemainder := (lensOf M pre).sum + (M.mbuf x).dataLen - n
                shadowLenDelievered := n - (lensOf M pre).sum } ∧
            (ipaugenblickTryReadExactAmount M descr mbuf n).firstSegmentLen =
              n - (lensOf M pre).sum ∨
          (lensOf M pre).sum < n ∧ (lensOf M pre).sum + (M.mbuf x).dataLen = n ∧
            (ipaugenblickTryReadExactAmount M descr mbuf n).mem = M.setNext x none ∧
            (ipaugenblickTryReadExactAmount M descr mbuf n).descr =
              edgeShadow M descr (M.next x) ∧
            (ipaugenblickTryReadExactAmount M descr mbuf n).firstSegmentLen =
              (M.mbuf mbuf).dataLen) := by
  unfold ipaugenblickTryReadExactAmount
  rcases skipWhole_spec M none hlinked hsize hn with
    ⟨hsum, last, heq⟩ | ⟨pre, x, post, last, rfl, hlow, hhigh, heq⟩
  · rw [Nat.zero_add] at hsum heq
    rw [heq]
    exact .inl ⟨hsum, rfl, rfl, rfl, rfl⟩
  · rw [Nat.zero_add] at hlow hhigh heq
    rw [heq]
    refine .inr ⟨pre, x, post, rfl, ?_⟩
    have hne : ¬ (lensOf M pre).sum = n := by omega
    by_cases hinside : n < (lensOf M pre).sum + (M.mbuf x).dataLen
    · have hdelivered : (M.mbuf x).dataLen - ((lensOf M pre).sum + (M.mbuf x).dataLen - n) =
          n - (lensOf M pre).sum := by omega
      simp only [if_pos hinside, if_neg hne, hdelivered]
      exact ⟨trivial, .inl ⟨hlow, hinside, trivial, trivial, trivial⟩⟩
    · simp only [if_neg hinside, if_neg hne]
      refine ⟨trivial, .inr ⟨hlow, by omega, trivial, ?_, trivial⟩⟩
      cases M.next x with
      | none => rfl
      | some rest => rfl

/-! ## What is pending -/

/-- The buffers `pend` wait in the shadow.  The link of the first is cut when it
was read halfway and still there when the read ended just before it. -/
def Pending (M : MbufMem) (descr : Shadow) : List ℕ → Prop
  | [] => descr.shadow = none ∧ descr.shadowNext = none
  | x :: rest => descr.shadow = some x ∧ Linked M.next descr.shadowNext rest ∧
      (M.next x = none ∨ M.next x = descr.shadowNext)

def pendBytes (M : MbufMem) (descr : Shadow) : List ℕ → List UInt8
  | [] => []
  | x :: rest =>
      (M.mbuf x).slice ((M.mbuf x).dataOff + descr.shadowLenDelievered)
        descr.shadowLenRemainder ++ bytesOf M rest

/-- The returned chain ends with the pending segment when that one was cut, and
with a buffer of the application's own otherwise. -/
def TailOk (M : MbufMem) (pend tail : List ℕ) : Prop :=
  tail = [] ∨ ∃ x rest, pend = x :: rest ∧ tail = [x] ∧ M.next x = none

/-- Whether the descriptor gets the right length when a read ends with a segment
and segments of these lengths are left.  What is recorded for the next segment is
the length of the one behind it, or whatever was there before when there is none. -/
def edgeOk (descr : Shadow) : List ℕ → Prop
  | [] => True
  | [s] => descr.shadowLenRemainder = s ∧ descr.shadowLenDelievered = 0
  | s :: t :: _ => s = t

/-- Whether a request for `n` bytes of a chain with these segment lengths leaves
the right lengths in the descriptor. -/
def boundaryOk (descr : Shadow) : List ℕ → ℕ → Prop
  | [], _ => True
  | l :: ls, n =>
      if l < n then boundaryOk descr ls (n - l)
      else if l = n then edgeOk descr ls
      else True

theorem boundaryOk_at (M : MbufMem) (descr : Shadow) {pre post : List ℕ} {x n : ℕ}
    (hok : boundaryOk descr (lensOf M (pre ++ x :: post)) n)
    (hsum : (lensOf M pre).sum + (M.mbuf x).dataLen = n)
    (hlow : (lensOf M pre).sum < n) : edgeOk descr (lensOf M post) := by
  induction pre generalizing n with
  | nil =>
      have heq : (M.mbuf x).dataLen = n := by simpa [lensOf] using hsum
      rw [List.nil_append, lensOf_cons, boundaryOk, if_neg (by omega), if_pos heq] at hok
      exact hok
  | cons y pre ih =>
      rw [lensOf_cons, List.sum_cons] at hsum hlow
      rw [List.cons_append, lensOf_cons, boundaryOk, if_pos (by omega)] at hok
      exact ih hok (by omega) (by omega)

/-- What a bounded read of a chain leaves behind. -/
structure ReadOf (M : MbufMem) (descr : Shadow) (mbuf n : ℕ) (ids : List ℕ) (r : ExactRead)
    (own tail pend : List ℕ) : Prop where
  split : ids = own ++ pend
  linked : Linked r.mem.next (some mbuf) (own ++ tail)
  tailOk : TailOk r.mem pend tail
  pending : Pending r.mem r.descr pend
  others : ∀ i, i ∉ ids → r.mem.mbuf i = M.mbuf i
  size : r.mem.size = M.size
  frees : r.mem.frees = M.frees
  short : ∀ i, (r.mem.mbuf i).dataLen < 65536
  atMost : (lensOf r.mem (own ++ tail)).sum ≤ n
  total : r.totalLen = min n (lensOf M ids).sum
  usedUp : (lensOf M ids).sum < n →
    own = ids ∧ tail = [] ∧ pend = [] ∧ r.mem = M ∧ r.descr = descr
  remainder : boundaryOk descr (lensOf M ids) n → pend ≠ [] →
    r.descr.shadowLenRemainder < 65536
  bytes : boundaryOk descr (lensOf M ids) n →
    bytesOf r.mem (own ++ tail) ++ pendBytes r.mem r.descr pend = bytesOf M ids

section Reading

variable {M : MbufMem} {descr : Shadow} {mbuf n : ℕ} {ids : List ℕ}

/-- Contents and links of the chain behind a cut segment. -/
theorem setNext_mbuf_of_ne (M : MbufMem) {x i : ℕ} (p : Option ℕ) (h : i ≠ x) :
    (M.setNext x p).mbuf i = M.mbuf i := M.modify_of_ne _ h

theorem readOf_inside {pre post : List ℕ} {x : ℕ}
    (hlinked : Linked M.next (some mbuf) (pre ++ x :: post))
    (hshort : ∀ i, (M.mbuf i).dataLen < 65536) (hlow : (lensOf M pre).sum < n)
    (hhigh : n < (lensOf M pre).sum + (M.mbuf x).dataLen) {r : ExactRead}
    (htotal : r.totalLen = n)
    (hmem : r.mem = (M.setDataLen x (n - (lensOf M pre).sum)).setNext x none)
    (hdescr : r.descr =
      { shadow := some x, shadowNext := M.next x
        shadowLenRemainder := (lensOf M pre).sum + (M.mbuf x).dataLen - n
        shadowLenDelievered := n - (lensOf M pre).sum }) :
    ReadOf M descr mbuf n (pre ++ x :: post) r pre [x] (x :: post) := by
  have hnodup := hlinked.nodup
  have hx : x ∉ pre ∧ x ∉ post := by
    rw [List.nodup_append] at hnodup
    refine ⟨fun hmem => hnodup.2.2 x hmem x (by simp) rfl, ?_⟩
    exact (List.nodup_cons.mp hnodup.2.1).1
  have hlen : (n - (lensOf M pre).sum) % 65536 = n - (lensOf M pre).sum := by
    apply Nat.mod_eq_of_lt
    have hxshort := hshort x
    omega
  have hnext : r.mem.next = Function.update M.next x none := by
    rw [hmem, MbufMem.next_setNext]
    congr 1
    exact M.next_modify x rfl
  have hother : ∀ i, i ≠ x → r.mem.mbuf i = M.mbuf i := by
    intro i hi
    rw [hmem, setNext_mbuf_of_ne _ _ hi, MbufMem.setDataLen, MbufMem.modify_of_ne _ _ hi]
  have hself : r.mem.mbuf x =
      { M.mbuf x with dataLen := n - (lensOf M pre).sum, next := none } := by
    rw [hmem, MbufMem.setNext, MbufMem.modify_self, MbufMem.setDataLen, MbufMem.modify_self, hlen]
  have hlens : ∀ {ps : List ℕ}, x ∉ ps → lensOf r.mem ps = lensOf M ps := by
    intro ps hps
    apply List.map_congr_left
    intro i hi
    rw [hother i fun heq => hps (heq ▸ hi)]
  have hbytes : ∀ {ps : List ℕ}, x ∉ ps → bytesOf r.mem ps = bytesOf M ps := by
    intro ps hps
    apply bytesOf_congr
    intro i hi
    rw [hother i fun heq => hps (heq ▸ hi)]
  have hbehind : Linked M.next (M.next x) post := (Linked.drop_front hlinked).2
  exact
    { split := rfl
      linked := by
        rw [hnext]
        exact hlinked.cut
      tailOk := .inr ⟨x, post, rfl, rfl, by rw [hnext, Function.update_self]⟩
      pending := by
        rw [hdescr]
        refine ⟨rfl, ?_, .inl (by rw [hnext, Function.update_self])⟩
        rw [hnext]
        refine hbehind.congr fun i hi => Function.update_of_ne ?_ _ _
        exact fun heq => hx.2 (heq ▸ hi)
      others := by
        intro i hi
        exact hother i fun heq => hi (by simp [heq])
      size := by rw [hmem]; rfl
      frees := by rw [hmem]; rfl
      short := by
        intro i
        by_cases h : i = x
        · subst h
          rw [hself]
          have hishort := hshort i
          dsimp only
          omega
        · rw [hother i h]
          exact hshort i
      atMost := by
        have hone : lensOf r.mem [x] = [n - (lensOf M pre).sum] := by
          simp [lensOf, hself]
        have happend : lensOf r.mem (pre ++ [x]) = lensOf r.mem pre ++ lensOf r.mem [x] := by
          simp [lensOf]
        rw [happend, hlens hx.1, hone, List.sum_append, List.sum_singleton]
        omega
      total := by
        rw [htotal]
        have hsum : (lensOf M (pre ++ x :: post)).sum =
            (lensOf M pre).sum + ((M.mbuf x).dataLen + (lensOf M post).sum) := by
          simp [lensOf]
        rw [hsum]
        omega
      usedUp := by
        intro hsmall
        have hsum : (lensOf M (pre ++ x :: post)).sum =
            (lensOf M pre).sum + ((M.mbuf x).dataLen + (lensOf M post).sum) := by
          simp [lensOf]
        omega
      remainder := by
        intro _ _
        rw [hdescr]
        have hxshort := hshort x
        dsimp only
        omega
      bytes := by
        intro _
        have hdata : (r.mem.mbuf x).data ++
            (r.mem.mbuf x).slice ((r.mem.mbuf x).dataOff + (n - (lensOf M pre).sum))
              ((lensOf M pre).sum + (M.mbuf x).dataLen - n) = (M.mbuf x).data := by
          have hsum : (M.mbuf x).dataLen = (n - (lensOf M pre).sum) +
              ((lensOf M pre).sum + (M.mbuf x).dataLen - n) := by omega
          have hjoin := (M.mbuf x).slice_add (M.mbuf x).dataOff (n - (lensOf M pre).sum)
            ((lensOf M pre).sum + (M.mbuf x).dataLen - n)
          rw [← hsum] at hjoin
          rw [hself]
          exact hjoin.symm
        rw [pendBytes, hdescr, hbytes hx.2, bytesOf_append, hbytes hx.1]
        have hone : bytesOf r.mem [x] = (r.mem.mbuf x).data := by simp [bytesOf]
        have hwhole : bytesOf M (pre ++ x :: post) =
            bytesOf M pre ++ ((M.mbuf x).data ++ bytesOf M post) := by simp [bytesOf]
        rw [hone, hwhole, ← hdata]
        simp only [List.append_assoc] }

theorem readOf_edge {pre post : List ℕ} {x : ℕ}
    (hlinked : Linked M.next (some mbuf) (pre ++ x :: post))
    (hshort : ∀ i, (M.mbuf i).dataLen < 65536) (hlow : (lensOf M pre).sum < n)
    (hsum : (lensOf M pre).sum + (M.mbuf x).dataLen = n)
    (hdescrNone : descr.shadow = none ∧ descr.shadowNext = none) {r : ExactRead}
    (htotal : r.totalLen = n) (hmem : r.mem = M.setNext x none)
    (hdescr : r.descr = edgeShadow M descr (M.next x)) :
    ReadOf M descr mbuf n (pre ++ x :: post) r (pre ++ [x]) [] post := by
  have hnodup := hlinked.nodup
  have hx : x ∉ post := by
    rw [List.nodup_append] at hnodup
    exact (List.nodup_cons.mp hnodup.2.1).1
  have hnext : r.mem.next = Function.update M.next x none := by
    rw [hmem, MbufMem.next_setNext]
  have hcores : r.mem.cores = M.cores := by rw [hmem, MbufMem.cores_setNext]
  have hlens : ∀ ps : List ℕ, lensOf r.mem ps = lensOf M ps := by
    intro ps
    apply List.map_congr_left
    intro i _
    exact MbufMem.dataLen_congr hcores i
  have hbytes : ∀ ps : List ℕ, bytesOf r.mem ps = bytesOf M ps := by
    intro ps
    apply bytesOf_congr
    intro i _
    exact MbufMem.data_congr hcores i
  have hbehind : Linked M.next (M.next x) post := (Linked.drop_front hlinked).2
  have hbehind' : Linked r.mem.next (M.next x) post := by
    rw [hnext]
    refine hbehind.congr fun i hi => Function.update_of_ne ?_ _ _
    exact fun heq => hx (heq ▸ hi)
  have hlensum : (lensOf M (pre ++ x :: post)).sum =
      (lensOf M pre).sum + ((M.mbuf x).dataLen + (lensOf M post).sum) := by
    simp [lensOf]
  have hleft : Pending r.mem r.descr post ∧
      (edgeOk descr (lensOf M post) → post ≠ [] → r.descr.shadowLenRemainder < 65536) ∧
      (edgeOk descr (lensOf M post) → pendBytes r.mem r.descr post = bytesOf M post) := by
    cases post with
    | nil =>
        rw [Linked.nil_iff] at hbehind
        rw [hdescr, hbehind]
        exact ⟨hdescrNone, fun _ hne => absurd rfl hne, fun _ => rfl⟩
    | cons y rest =>
        obtain ⟨hy, hrest⟩ := hbehind
        obtain ⟨-, hrest'⟩ := hbehind'
        have hynext : r.mem.next y = M.next y := by
          rw [hnext, Function.update_of_ne]
          rintro rfl
          exact hx (by simp)
        rw [hynext] at hrest'
        have hslice : ∀ off len : ℕ, (r.mem.mbuf y).slice ((r.mem.mbuf y).dataOff + off) len =
            (M.mbuf y).slice ((M.mbuf y).dataOff + off) len := by
          intro off len
          have hcore := congrArg (fun m : Mbuf => m.slice (m.dataOff + off) len)
            (congrFun hcores y)
          exact hcore
        cases rest with
        | nil =>
            rw [Linked.nil_iff] at hrest
            have hnew : r.descr = { descr with shadow := some y, shadowNext := none } := by
              rw [hdescr, hy, edgeShadow, hrest]
            rw [hnew]
            refine ⟨⟨rfl, rfl, .inl (by rw [hynext, hrest])⟩, ?_, ?_⟩
            · intro hok _
              have hrem : descr.shadowLenRemainder = (M.mbuf y).dataLen := hok.1
              show descr.shadowLenRemainder < 65536
              rw [hrem]
              exact hshort y
            · intro hok
              have hrem : descr.shadowLenRemainder = (M.mbuf y).dataLen := hok.1
              have hdel : descr.shadowLenDelievered = 0 := hok.2
              show (r.mem.mbuf y).slice ((r.mem.mbuf y).dataOff + descr.shadowLenDelievered)
                descr.shadowLenRemainder ++ bytesOf r.mem [] = _
              rw [hslice, hrem, hdel]
              rfl
        | cons z behind =>
            have hz : M.next y = some z := hrest.1
            have hnew : r.descr =
                { shadow := some y, shadowNext := some z
                  shadowLenRemainder := (M.mbuf z).dataLen, shadowLenDelievered := 0 } := by
              rw [hdescr, hy, edgeShadow, hz]
            rw [hnew]
            refine ⟨⟨rfl, ⟨rfl, hrest'.2⟩, .inr (by rw [hynext, hz])⟩, ?_, ?_⟩
            · intro _ _
              exact hshort z
            · intro hok
              have hsame : (M.mbuf y).dataLen = (M.mbuf z).dataLen := hok
              show (r.mem.mbuf y).slice ((r.mem.mbuf y).dataOff + 0) (M.mbuf z).dataLen ++
                bytesOf r.mem (z :: behind) = _
              rw [hslice, hbytes, ← hsame]
              rfl
  exact
    { split := by simp
      linked := by
        rw [hnext, List.append_nil]
        exact hlinked.cut
      tailOk := .inl rfl
      pending := hleft.1
      others := by
        intro i hi
        rw [hmem]
        exact setNext_mbuf_of_ne _ _ fun heq => hi (by simp [heq])
      size := by rw [hmem]; rfl
      frees := by rw [hmem]; rfl
      short := by
        intro i
        rw [MbufMem.dataLen_congr hcores i]
        exact hshort i
      atMost := by
        have happend : lensOf M (pre ++ [x]) = lensOf M pre ++ [(M.mbuf x).dataLen] := by
          simp [lensOf]
        rw [List.append_nil, hlens, happend, List.sum_append, List.sum_singleton]
        omega
      total := by
        rw [htotal, hlensum]
        omega
      usedUp := by
        intro hsmall
        omega
      remainder := fun hok hne => hleft.2.1 (boundaryOk_at M descr hok hsum hlow) hne
      bytes := by
        intro hok
        rw [hleft.2.2 (boundaryOk_at M descr hok hsum hlow), hbytes, List.append_nil]
        simp [bytesOf] }

theorem readOf_usedUp (hlinked : Linked M.next (some mbuf) ids)
    (hshort : ∀ i, (M.mbuf i).dataLen < 65536) (hsum : (lensOf M ids).sum < n)
    (hdescrNone : descr.shadow = none ∧ descr.shadowNext = none) {r : ExactRead}
    (htotal : r.totalLen = (lensOf M ids).sum) (hmem : r.mem = M) (hdescr : r.descr = descr) :
    ReadOf M descr mbuf n ids r ids [] [] where
  split := by simp
  linked := by
    rw [hmem, List.append_nil]
    exact hlinked
  tailOk := .inl rfl
  pending := by
    rw [hdescr]
    exact hdescrNone
  others := fun _ _ => by rw [hmem]
  size := by rw [hmem]
  frees := by rw [hmem]
  short := by
    rw [hmem]
    exact hshort
  atMost := by
    rw [hmem, List.append_nil]
    omega
  total := by
    rw [htotal]
    omega
  usedUp := fun _ => ⟨rfl, rfl, rfl, hmem, hdescr⟩
  remainder := fun _ hne => absurd rfl hne
  bytes := by
    intro _
    rw [hmem, List.append_nil]
    exact List.append_nil _

/-- **Spec of a bounded read.** -/
theorem ipaugenblickTryReadExactAmount_spec (hlinked : Linked M.next (some mbuf) ids)
    (hsize : ids.length ≤ M.size) (hshort : ∀ i, (M.mbuf i).dataLen < 65536) (hn : 0 < n)
    (hdescrNone : descr.shadow = none ∧ descr.shadowNext = none) :
    ∃ own tail pend, ReadOf M descr mbuf n ids (ipaugenblickTryReadExactAmount M descr mbuf n)
      own tail pend := by
  rcases ipaugenblickTryReadExactAmount_cases M descr hlinked hsize hn with
    ⟨hsum, hmem, hdescr, htotal, -⟩ | ⟨pre, x, post, rfl, htotal, hcut⟩
  · exact ⟨ids, [], [], readOf_usedUp hlinked hshort hsum hdescrNone htotal hmem hdescr⟩
  · rcases hcut with ⟨hlow, hhigh, hmem, hdescr, -⟩ | ⟨hlow, hsum, hmem, hdescr, -⟩
    · exact ⟨pre, [x], x :: post, readOf_inside hlinked hshort hlow hhigh htotal hmem hdescr⟩
    · exact ⟨pre ++ [x], [], post,
        readOf_edge hlinked hshort hlow hsum hdescrNone htotal hmem hdescr⟩

end Reading

end IpAugenblick
