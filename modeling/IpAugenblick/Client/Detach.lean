/-
# Walking a received chain segment by segment

`ipaugenblick_get_next_buffer_segment` moves a descriptor to the next segment of
its chain.  Its sibling with `_and_detach_first` is meant to take the segment it
leaves out of the chain, so that an application can release one segment while it
works on the next.

The sibling reads the segment to detach from `*pdesc` after it has moved `*pdesc`
on.  It therefore cuts behind the new segment, and the walk ends there.
-/

import IpAugenblick.Client.Chains

namespace IpAugenblick

open Lib

/-- What a call leaves in `*pdesc` and `*len`, and the data address it returns. -/
structure NextSegment where
  pdesc : ℕ
  data : ℕ × ℕ
  len : ℕ
  deriving DecidableEq, Repr

def ipaugenblickGetNextBufferSegment (M : MbufMem) (pdesc : ℕ) : Option NextSegment × MbufMem :=
  match M.next pdesc with
  | none => (none, M)
  | some mbuf => (some ⟨mbuf, rtePktmbufMtod M mbuf, (M.mbuf mbuf).dataLen⟩, M)

def ipaugenblickGetNextBufferSegmentAndDetachFirst (M : MbufMem) (pdesc : ℕ) :
    Option NextSegment × MbufMem :=
  match M.next pdesc with
  | none => (none, M)
  | some mbuf =>
      let len := (M.mbuf mbuf).dataLen
      let pdesc := mbuf
      -- `*pdesc` is the next segment by now
      let orig := pdesc
      let M := M.modify orig fun m => { m with next := none, nbSegs := 1 }
      (some ⟨pdesc, rtePktmbufMtod M mbuf, len⟩, M)

/-- A call that returned a segment: `*pdesc` before it, its result and the buffers after it. -/
structure SegmentCall where
  before : ℕ
  seg : NextSegment
  mem : MbufMem

/-- Call `get` until it returns NULL; `none` when `fuel` calls were not enough. -/
def segmentWalk (get : MbufMem → ℕ → Option NextSegment × MbufMem) :
    ℕ → MbufMem → ℕ → Option (List SegmentCall × MbufMem)
  | 0, _, _ => none
  | fuel + 1, M, pdesc =>
      match get M pdesc with
      | (none, M) => some ([], M)
      | (some seg, M) =>
          (segmentWalk get fuel M seg.pdesc).map fun walk => (⟨pdesc, seg, M⟩ :: walk.1, walk.2)

/-- The descriptor `first` of a client starts a chain of delivered segments. -/
structure ReceivedChain (c : RxClient) (first : ℕ) (ids : List ℕ) : Prop where
  linked : Linked c.mem.next (some first) ids
  inRange : ∀ i ∈ ids, i < c.mem.size
  delivered : ∀ i ∈ ids, some i ≠ c.descr.shadow

/-- What a walk with detaching is for, of the calls it made and the buffers it left. -/
structure DetachesEach (c : RxClient) (first : ℕ) (ids : List ℕ) (calls : List SegmentCall)
    (last : MbufMem) : Prop where
  visits : first :: calls.map (·.seg.pdesc) = ids
  lens : calls.map (·.seg.len) = lensOf c.mem ids.tail
  detached : ∀ call ∈ calls,
    call.mem.next call.before = none ∧ (call.mem.mbuf call.before).nbSegs = 1
  reaches : ∀ pre call post, calls = pre ++ call :: post →
    Linked call.mem.next (some call.seg.pdesc) (ids.drop (pre.length + 1))
  /-- Releasing the segments one by one frees each of them once. -/
  freed : ∀ i,
    (ids.foldl RxClient.ipaugenblickReleaseRxBuffer { c with mem := last }).mem.frees.count i =
      c.mem.frees.count i + ids.count i

/-- The walk with detaching ends and does what it is for. -/
def WalksAndDetaches (c : RxClient) (first : ℕ) (ids : List ℕ) : Prop :=
  ∃ fuel calls last,
    segmentWalk ipaugenblickGetNextBufferSegmentAndDetachFirst fuel c.mem first =
      some (calls, last) ∧ DetachesEach c first ids calls last

/-! ## The walk without detaching -/

/-- A walk that leaves the links alone visits every segment, in order and once. -/
theorem segmentWalk_visits (M : MbufMem) {first : ℕ} {ids : List ℕ}
    (hlinked : Linked M.next (some first) ids) :
    ∃ calls, segmentWalk ipaugenblickGetNextBufferSegment ids.length M first = some (calls, M) ∧
      first :: calls.map (·.seg.pdesc) = ids ∧ calls.map (·.seg.len) = lensOf M ids.tail := by
  induction ids generalizing first with
  | nil => exact absurd (Linked.nil_iff.mp hlinked) (by simp)
  | cons x rest ih =>
      obtain ⟨hx, htail⟩ := hlinked
      obtain rfl := Option.some.inj hx
      cases rest with
      | nil =>
          have hend : M.next first = none := Linked.nil_iff.mp htail
          exact ⟨[], by simp [segmentWalk, ipaugenblickGetNextBufferSegment, hend], rfl, rfl⟩
      | cons y rest =>
          have hnext : M.next first = some y := htail.1
          rw [hnext] at htail
          obtain ⟨calls, hwalk, hvisits, hlens⟩ := ih htail
          refine ⟨⟨first, ⟨y, rtePktmbufMtod M y, (M.mbuf y).dataLen⟩, M⟩ :: calls, ?_, ?_, ?_⟩
          · rw [List.length_cons, segmentWalk]
            simp only [ipaugenblickGetNextBufferSegment, hnext]
            rw [hwalk, Option.map_some]
          · rw [List.map_cons, hvisits]
          · rw [List.map_cons, hlens]
            rfl

/-! ## The walk with detaching -/

section Detach

variable {c : RxClient} {first second : ℕ} {rest : List ℕ}

/-- The call on the first of two segments cuts behind the second. -/
theorem detach_first_call {M : MbufMem} (hnext : M.next first = some second) :
    ipaugenblickGetNextBufferSegmentAndDetachFirst M first =
      (some ⟨second, rtePktmbufMtod M second, (M.mbuf second).dataLen⟩,
        M.modify second fun m => { m with next := none, nbSegs := 1 }) := by
  simp [ipaugenblickGetNextBufferSegmentAndDetachFirst, hnext, rtePktmbufMtod]

/-- The first segment stays attached to the second, and the rest of the chain is lost. -/
theorem detach_walk_keeps_first (h : ReceivedChain c first (first :: second :: rest)) :
    Linked (c.mem.modify second fun m => { m with next := none, nbSegs := 1 }).next (some first)
      [first, second] := by
  have hne : first ≠ second := by
    have hnodup := h.linked.nodup
    simp only [List.nodup_cons, List.mem_cons, not_or] at hnodup
    exact hnodup.1.1
  have hnext : c.mem.next first = some second := h.linked.2.1
  have hkept : (c.mem.modify second fun m => { m with next := none, nbSegs := 1 }).next first =
      some second := by
    rw [MbufMem.next, c.mem.modify_of_ne _ hne]
    exact hnext
  refine ⟨rfl, hkept, ?_⟩
  rw [Linked.nil_iff]
  simp [MbufMem.next]

/-- With a second segment, the first call leaves the first segment attached. -/
theorem not_walksAndDetaches (h : ReceivedChain c first (first :: second :: rest)) :
    ¬ WalksAndDetaches c first (first :: second :: rest) := by
  rintro ⟨fuel, calls, last, hwalk, hdetaches⟩
  have hnext : c.mem.next first = some second := h.linked.2.1
  cases fuel with
  | zero => cases hwalk
  | succ fuel =>
      simp only [segmentWalk, detach_first_call hnext, Option.map_eq_some_iff] at hwalk
      obtain ⟨walk, -, hcalls⟩ := hwalk
      obtain ⟨rfl, rfl⟩ := Prod.mk.inj hcalls
      have hcut := (hdetaches.detached _ List.mem_cons_self).1
      have hkept := (detach_walk_keeps_first h).2.1
      rw [hcut] at hkept
      cases hkept

/-- A chain of one segment has nothing to detach. -/
theorem walksAndDetaches_single (h : ReceivedChain c first [first]) :
    WalksAndDetaches c first [first] := by
  have hend : c.mem.next first = none := Linked.nil_iff.mp h.linked.2
  have hlinked : Linked c.mem.next (some first) ([first] ++ []) := h.linked
  have hsize : ([first] ++ []).length ≤ c.mem.size :=
    MbufMem.length_le_size h.linked.nodup h.inRange
  have hfree : c.ipaugenblickReleaseRxBuffer first =
      { c with mem := c.mem.rtePktmbufFreeSeg first } := by
    unfold RxClient.ipaugenblickReleaseRxBuffer
    rw [sweepUntil_eq_foldl MbufMem.next_rtePktmbufFreeSeg_of_ne hlinked hsize h.delivered
      (.inl rfl)]
    rfl
  refine ⟨1, [], c.mem, ?_, rfl, rfl, ?_, ?_, ?_⟩
  · simp [segmentWalk, ipaugenblickGetNextBufferSegmentAndDetachFirst, hend]
  · intro call hcall
    cases hcall
  · intro pre call post hsplit
    exact absurd hsplit (by simp)
  · intro i
    show (c.ipaugenblickReleaseRxBuffer first).mem.frees.count i = _
    rw [hfree]
    simp [List.count_cons]

end Detach

/-- A client that got a chain of these segments and nothing else. -/
def clientOf (segs : List (List UInt8)) : RxClient where
  mem := allocChain noMbufs segs
  ring := .empty
  cache := .empty
  descr :=
    { shadow := none, shadowNext := none, shadowLenRemainder := 0, shadowLenDelievered := 0 }

end IpAugenblick
