/-
# A new header buffer

An skb of the ported stack says twice where its header is: `head` points into the
buffer, and `header_mbuf` is the packet buffer, which the driver sends and a release
drops.  `pskb_expand_head` copies the header to a new packet buffer, moves `head`,
`data`, `tail` and the header offsets there and drops a reference of the old buffer.
`header_mbuf` stays the old one.
-/

import IpAugenblick.Stack.Frames
import IpAugenblick.Stack.MakeSkb

namespace IpAugenblick

open Lib

/-- The fields of `struct sk_buff` that are relative to `head`. -/
structure HeaderOffsets where
  transportHeader : BitVec 16
  networkHeader : BitVec 16
  /-- All ones when it was not set. -/
  macHeader : BitVec 16
  innerTransportHeader : BitVec 16
  innerNetworkHeader : BitVec 16
  innerMacHeader : BitVec 16
  csumStart : BitVec 16
  deriving DecidableEq, Repr

/-- `struct sk_buff` with both descriptions of its header. -/
structure HeadSkb where
  headerMbuf : Option ℕ
  /-- The packet buffer that `head` points into. -/
  headBuf : ℕ
  /-- `head - buf_addr`. -/
  headOff : ℕ
  /-- `data - head`. -/
  data : ℕ
  tail : ℕ
  endOffset : ℕ
  len : ℕ
  dataLen : ℕ
  hdrLen : ℕ
  cloned : Bool
  nohdr : Bool
  ipSummed : IpSummed
  headers : HeaderOffsets
  /-- The address of the shared info. -/
  shinfo : ℕ
  deriving DecidableEq, Repr

/-- The packet buffers, the shared infos and the skbs. -/
structure HeadState where
  mem : MbufMem
  shinfo : ℕ → SkbSharedInfo
  skb : ℕ → HeadSkb

/-- `rte_pktmbuf_alloc` of the buffer: the header is reset, the memory is not. -/
def Mbuf.rtePktmbufReset (m : Mbuf) : Mbuf where
  dataOff := rtePktmbufHeadroom
  dataLen := 0
  pktLen := 0
  nbSegs := 1
  next := none
  refcnt := 1
  buf := m.buf

def HeaderOffsets.skbMacHeaderWasSet (h : HeaderOffsets) : Bool := h.macHeader != 0xFFFF

/-- `skb_headers_offset_update`. -/
def HeaderOffsets.update (h : HeaderOffsets) (ipSummed : IpSummed) (off : ℕ) : HeaderOffsets where
  transportHeader := h.transportHeader + BitVec.ofNat 16 off
  networkHeader := h.networkHeader + BitVec.ofNat 16 off
  macHeader :=
    if h.skbMacHeaderWasSet then h.macHeader + BitVec.ofNat 16 off else h.macHeader
  innerTransportHeader := h.innerTransportHeader + BitVec.ofNat 16 off
  innerNetworkHeader := h.innerNetworkHeader + BitVec.ofNat 16 off
  innerMacHeader := h.innerMacHeader + BitVec.ofNat 16 off
  csumStart :=
    if ipSummed = .checksumPartial then h.csumStart + BitVec.ofNat 16 off else h.csumStart

/-- `SKB_DATA_ALIGN` and the size of the shared info under it. -/
structure SkbSizes where
  skbDataAlign : ℕ → ℕ
  shinfoSize : ℕ

def enomem : ℤ := 12

namespace HeadState

/-- `pskb_expand_head` of the skb `i`, with the result of `rte_pktmbuf_alloc`. -/
def pskbExpandHead (sizes : SkbSizes) (s : HeadState) (i nhead ntail : ℕ) (newHead : Option ℕ) :
    HeadState × ℤ :=
  let skb := s.skb i
  let size := sizes.skbDataAlign (nhead + skb.endOffset + ntail)
  match newHead, skb.headerMbuf with
  | some newHead, some header =>
      let M := s.mem.modify newHead Mbuf.rtePktmbufReset
      let data := (M.mbuf newHead).dataOff
      let M := M.modify newHead fun m =>
        m.write (data + nhead) ((M.mbuf skb.headBuf).slice skb.headOff skb.tail)
      let M := M.rtePktmbufFreeSeg header
      ({ mem := M
         shinfo := Function.update s.shinfo skb.shinfo { s.shinfo skb.shinfo with dataref := 1 }
         skb := Function.update s.skb i
          { skb with
            headBuf := newHead
            headOff := data
            data := nhead + skb.data
            tail := skb.tail + nhead
            endOffset := (((size : ℤ) - sizes.shinfoSize) % 4294967296).toNat
            headers := skb.headers.update skb.ipSummed nhead
            cloned := false
            hdrLen := 0
            nohdr := false } }, 0)
  | _, _ => (s, -enomem)

/-- `skb_headlen` bytes from `skb->data`. -/
def linear (s : HeadState) (i : ℕ) : List UInt8 :=
  let skb := s.skb i
  (s.mem.mbuf skb.headBuf).slice (skb.headOff + skb.data) (skb.len - skb.dataLen)

/-- The skb as the driver sees it. -/
def forDriver (s : HeadState) (i : ℕ) : Skb where
  headerMbuf := (s.skb i).headerMbuf
  headroom := (s.skb i).data
  len := (s.skb i).len
  dataLen := (s.skb i).dataLen
  seq := 0
  endSeq := 0
  cloned := (s.skb i).cloned
  nohdr := (s.skb i).nohdr
  shinfo := s.shinfo (s.skb i).shinfo

/-- What `dpdk_xmit_frame` sends of the skb. -/
def emitted (s : HeadState) (i : ℕ) : Option Frame :=
  (s.skb i).headerMbuf.map fun head =>
    frameAt (dpdkXmitFrame s.mem (s.forDriver i) head).1 head

end HeadState

/-- The header offsets are where they were relative to `data`, which moved by `off`. -/
structure OffsetsMoved (ipSummed : IpSummed) (before after : HeaderOffsets) (off : ℕ) : Prop where
  transport : after.transportHeader - BitVec.ofNat 16 off = before.transportHeader
  network : after.networkHeader - BitVec.ofNat 16 off = before.networkHeader
  mac : before.skbMacHeaderWasSet = true → after.macHeader - BitVec.ofNat 16 off = before.macHeader
  macUnset : before.skbMacHeaderWasSet = false → after.skbMacHeaderWasSet = false
  innerTransport : after.innerTransportHeader - BitVec.ofNat 16 off = before.innerTransportHeader
  innerNetwork : after.innerNetworkHeader - BitVec.ofNat 16 off = before.innerNetworkHeader
  innerMac : after.innerMacHeader - BitVec.ofNat 16 off = before.innerMacHeader
  csum : ipSummed = .checksumPartial →
    after.csumStart - BitVec.ofNat 16 off = before.csumStart

/-- What is kept of the skb `i`, the other skbs and the counts; `header` was its header buffer
and `fresh` is the new one. -/
structure HeadKept (before after : HeadState) (i header fresh : ℕ) : Prop where
  linear : after.linear i = before.linear i
  len : (after.skb i).len = (before.skb i).len ∧ (after.skb i).dataLen = (before.skb i).dataLen
  headers : ∃ off, (after.skb i).data = (before.skb i).data + off ∧
    OffsetsMoved (before.skb i).ipSummed (before.skb i).headers (after.skb i).headers off
  frags : (after.shinfo (after.skb i).shinfo).frags = (before.shinfo (before.skb i).shinfo).frags
  fragBytes : fragBytes after.mem (after.shinfo (after.skb i).shinfo).frags =
    fragBytes before.mem (before.shinfo (before.skb i).shinfo).frags
  dropped : (after.mem.mbuf header).refcnt = (before.mem.mbuf header).refcnt - 1
  counts : ∀ k, k ≠ header → k ≠ fresh →
    (after.mem.mbuf k).refcnt = (before.mem.mbuf k).refcnt
  clones : ∀ j, j ≠ i → after.skb j = before.skb j ∧
    ((before.skb j).headBuf ≠ fresh → after.linear j = before.linear j) ∧
    (after.shinfo (after.skb j).shinfo).frags = (before.shinfo (before.skb j).shinfo).frags

/-- What `pskb_expand_head` is for: when it returns 0, the skb has a new header buffer, which
`header_mbuf` is, nothing else has changed and the driver sends the same; when it fails, nothing
has changed. -/
def ExpandMeets (sizes : SkbSizes) (s : HeadState) (i nhead ntail : ℕ) (newHead : Option ℕ) :
    Prop :=
  let done := s.pskbExpandHead sizes i nhead ntail newHead
  if done.2 = 0 then
    ∃ header fresh, (s.skb i).headerMbuf = some header ∧ newHead = some fresh ∧
      (done.1.skb i).headerMbuf = some (done.1.skb i).headBuf ∧
      HeadKept s done.1 i header fresh ∧ done.1.emitted i = s.emitted i
  else done.1 = s

/-- An skb that may be expanded.  The buffer that `rte_pktmbuf_alloc` returns, if it does, was
free; `room` is what a header buffer holds. -/
structure HeadInput (s : HeadState) (i nhead ntail room : ℕ) (newHead : Option ℕ) : Prop where
  header : (s.skb i).headerMbuf = some (s.skb i).headBuf
  start : (s.skb i).headOff = rtePktmbufHeadroom
  alive : 0 < (s.mem.mbuf (s.skb i).headBuf).refcnt
  tail : (s.skb i).tail = (s.skb i).data + ((s.skb i).len - (s.skb i).dataLen)
  tail_le : (s.skb i).tail ≤ (s.skb i).endOffset
  fits : nhead + (s.skb i).endOffset + ntail ≤ room
  pages : ∀ f ∈ (s.shinfo (s.skb i).shinfo).frags, 0 < (s.mem.mbuf f.page).refcnt
  free : ∀ fresh, newHead = some fresh → (s.mem.mbuf fresh).refcnt = 0

section Kept

variable {sizes : SkbSizes} {s : HeadState} {i nhead ntail room fresh : ℕ}

/-- The packet buffers after the new header is filled and the old one dropped. -/
def expandedMem (s : HeadState) (i nhead fresh : ℕ) : MbufMem :=
  ((s.mem.modify fresh Mbuf.rtePktmbufReset).modify fresh fun m =>
    m.write (rtePktmbufHeadroom + nhead)
      ((s.mem.mbuf (s.skb i).headBuf).slice (s.skb i).headOff (s.skb i).tail)).rtePktmbufFreeSeg
    (s.skb i).headBuf

theorem HeadInput.fresh_ne {newHead : Option ℕ} (h : HeadInput s i nhead ntail room newHead)
    (hnew : newHead = some fresh) {k : ℕ} (hk : 0 < (s.mem.mbuf k).refcnt) : k ≠ fresh := by
  rintro rfl
  have := h.free k hnew
  omega

def expandedSkb (sizes : SkbSizes) (skb : HeadSkb) (nhead ntail fresh : ℕ) : HeadSkb :=
  { skb with
    headBuf := fresh
    headOff := rtePktmbufHeadroom
    data := nhead + skb.data
    tail := skb.tail + nhead
    endOffset := (((sizes.skbDataAlign (nhead + skb.endOffset + ntail) : ℕ) : ℤ) -
      sizes.shinfoSize) % 4294967296 |>.toNat
    headers := skb.headers.update skb.ipSummed nhead
    cloned := false
    hdrLen := 0
    nohdr := false }

theorem HeadInput.pskbExpandHead_eq (h : HeadInput s i nhead ntail room (some fresh)) :
    s.pskbExpandHead sizes i nhead ntail (some fresh) =
      ({ mem := expandedMem s i nhead fresh
         shinfo := Function.update s.shinfo (s.skb i).shinfo
          { s.shinfo (s.skb i).shinfo with dataref := 1 }
         skb := Function.update s.skb i (expandedSkb sizes (s.skb i) nhead ntail fresh) }, 0) := by
  have hne := h.fresh_ne rfl h.alive
  unfold HeadState.pskbExpandHead expandedMem expandedSkb
  simp only [h.header, MbufMem.modify_self, MbufMem.modify_of_ne _ _ hne]
  rfl

theorem slice_eq_of_core {m m' : Mbuf} (h : m'.core = m.core) (off len : ℕ) :
    m'.slice off len = m.slice off len := by
  have hslice := congrArg (fun m : Mbuf => m.slice off len) h
  exact hslice

/-- A buffer that was not free keeps its bytes. -/
theorem core_expandedMem {k : ℕ} (hk : k ≠ fresh) :
    ((expandedMem s i nhead fresh).mbuf k).core = (s.mem.mbuf k).core := by
  have hcores := congrFun (MbufMem.cores_rtePktmbufFreeSeg ((s.mem.modify fresh
    Mbuf.rtePktmbufReset).modify fresh fun m => m.write (rtePktmbufHeadroom + nhead)
      ((s.mem.mbuf (s.skb i).headBuf).slice (s.skb i).headOff (s.skb i).tail))
    (s.skb i).headBuf) k
  refine hcores.trans ?_
  simp [MbufMem.cores, MbufMem.modify_of_ne _ _ hk]

/-- Reading inside what was copied. -/
theorem slice_write_inside (m : Mbuf) (off a n : ℕ) (bs : List UInt8) (hn : a + n ≤ bs.length) :
    (m.write off bs).slice (off + a) n = (bs.drop a).take n := by
  have hall := m.slice_write off bs hn
  rw [Mbuf.slice_add] at hall
  have htail := congrArg (List.drop a) hall
  rw [List.drop_left' (by simp), List.drop_take, Nat.add_sub_cancel_left] at htail
  exact htail

/-- The new buffer has the header, `nhead` bytes further. -/
theorem HeadInput.slice_fresh (h : HeadInput s i nhead ntail room (some fresh)) :
    ((expandedMem s i nhead fresh).mbuf fresh).slice
        (rtePktmbufHeadroom + (nhead + (s.skb i).data)) ((s.skb i).len - (s.skb i).dataLen) =
      s.linear i := by
  have hne := h.fresh_ne rfl h.alive
  unfold expandedMem HeadState.linear
  rw [MbufMem.mbuf_rtePktmbufFreeSeg_of_ne _ hne.symm, MbufMem.modify_self, ← Nat.add_assoc,
    slice_write_inside _ _ _ _ _ (by rw [Mbuf.length_slice, h.tail]), h.tail, Mbuf.slice_add,
    List.drop_left' (by simp), List.take_of_length_le (by simp)]

theorem offsetsMoved_update (ipSummed : IpSummed) (headers : HeaderOffsets) (off : ℕ) :
    OffsetsMoved ipSummed headers (headers.update ipSummed off) off where
  transport := BitVec.add_sub_cancel _ _
  network := BitVec.add_sub_cancel _ _
  mac hset := by
    simp only [HeaderOffsets.update, hset, if_true]
    exact BitVec.add_sub_cancel _ _
  macUnset hunset := by
    have hsame : (headers.update ipSummed off).macHeader = headers.macHeader := by
      simp [HeaderOffsets.update, hunset]
    unfold HeaderOffsets.skbMacHeaderWasSet at hunset ⊢
    rw [hsame, hunset]
  innerTransport := BitVec.add_sub_cancel _ _
  innerNetwork := BitVec.add_sub_cancel _ _
  innerMac := BitVec.add_sub_cancel _ _
  csum hpartial := by
    simp only [HeaderOffsets.update, hpartial, if_true]
    exact BitVec.add_sub_cancel _ _

theorem fragBytes_congr_core {M M' : MbufMem} {frags : List Frag}
    (h : ∀ f ∈ frags, (M'.mbuf f.page).core = (M.mbuf f.page).core) :
    fragBytes M' frags = fragBytes M frags := by
  refine List.flatMap_congr fun f hf => ?_
  have hoff : (M'.mbuf f.page).dataOff = (M.mbuf f.page).dataOff := by
    have hcore := congrArg Mbuf.dataOff (h f hf)
    exact hcore
  rw [hoff, slice_eq_of_core (h f hf)]

theorem shinfo_frags_update (i j : ℕ) (r : ℤ) :
    (Function.update s.shinfo i { s.shinfo i with dataref := r } j).frags =
      (s.shinfo j).frags := by
  by_cases hj : j = i
  · subst hj
    rw [Function.update_self]
  · rw [Function.update_of_ne hj]

/-- **What is kept.**  All that `pskb_expand_head` has to keep, it keeps. -/
theorem HeadInput.kept (h : HeadInput s i nhead ntail room (some fresh)) :
    HeadKept s (s.pskbExpandHead sizes i nhead ntail (some fresh)).1 i (s.skb i).headBuf fresh := by
  have hne := h.fresh_ne rfl h.alive
  rw [h.pskbExpandHead_eq]
  exact
    { linear := by
        simp only [HeadState.linear, Function.update_self]
        exact h.slice_fresh
      len := by simp [expandedSkb]
      headers := by
        refine ⟨nhead, ?_, ?_⟩
        · simp [expandedSkb, Nat.add_comm]
        · simp only [Function.update_self]
          exact offsetsMoved_update _ _ _
      frags := by
        simp only [Function.update_self]
        exact shinfo_frags_update _ _ _
      fragBytes := by
        simp only [Function.update_self]
        rw [shinfo_frags_update]
        exact fragBytes_congr_core fun f hf =>
          core_expandedMem (h.fresh_ne rfl (h.pages f hf))
      dropped := by
        dsimp only
        unfold expandedMem
        rw [MbufMem.refcnt_rtePktmbufFreeSeg, MbufMem.modify_of_ne _ _ hne,
          MbufMem.modify_of_ne _ _ hne]
      counts := by
        intro k hk hkfresh
        dsimp only
        unfold expandedMem
        rw [MbufMem.mbuf_rtePktmbufFreeSeg_of_ne _ hk, MbufMem.modify_of_ne _ _ hkfresh,
          MbufMem.modify_of_ne _ _ hkfresh]
      clones := by
        intro j hj
        simp only [HeadState.linear, Function.update_of_ne hj]
        refine ⟨trivial, fun hbuf => ?_, shinfo_frags_update _ _ _⟩
        exact slice_eq_of_core (core_expandedMem hbuf) _ _ }

/-- The new header buffer is not the one that the driver sends and a release drops. -/
theorem HeadInput.header_stale (h : HeadInput s i nhead ntail room (some fresh)) :
    ((s.pskbExpandHead sizes i nhead ntail (some fresh)).1.skb i).headerMbuf ≠
      some ((s.pskbExpandHead sizes i nhead ntail (some fresh)).1.skb i).headBuf := by
  have hne := h.fresh_ne rfl h.alive
  rw [h.pskbExpandHead_eq]
  simp only [Function.update_self, expandedSkb, h.header, ne_eq, Option.some.injEq]
  exact hne

end Kept

/-- **When the packet is preserved.**  `pskb_expand_head` does what it is for just when it
fails. -/
theorem expand_head_preserves_iff {sizes : SkbSizes} {s : HeadState} {i nhead ntail room : ℕ}
    {newHead : Option ℕ} (h : HeadInput s i nhead ntail room newHead) :
    ExpandMeets sizes s i nhead ntail newHead ↔ newHead = none := by
  cases newHead with
  | none => simp [ExpandMeets, HeadState.pskbExpandHead, enomem]
  | some fresh =>
      refine ⟨fun hmeets => ?_, fun hnone => by cases hnone⟩
      have hret : (s.pskbExpandHead sizes i nhead ntail (some fresh)).2 = 0 := by
        rw [h.pskbExpandHead_eq]
      unfold ExpandMeets at hmeets
      dsimp only at hmeets
      rw [if_pos hret] at hmeets
      obtain ⟨-, -, -, -, hheader, -⟩ := hmeets
      exact absurd hheader h.header_stale

/-- An skb with four bytes of headers and no fragments, and a free packet buffer. -/
def fourHeaderBytes : HeadState where
  mem :=
    { mbuf := fun k =>
        ⟨rtePktmbufHeadroom, 0, 0, 1, none, if k = 0 then 1 else 0, fun j => UInt8.ofNat j⟩
      size := 2
      frees := []
      puts := [] }
  shinfo _ := ⟨[], 1⟩
  skb _ :=
    { headerMbuf := some 0
      headBuf := 0
      headOff := rtePktmbufHeadroom
      data := 0
      tail := 4
      endOffset := 64
      len := 4
      dataLen := 0
      hdrLen := 0
      cloned := false
      nohdr := false
      ipSummed := .checksumNone
      headers := ⟨0, 0, 0xFFFF, 0, 0, 0, 0⟩
      shinfo := 0 }

/-- Cache lines of 64 bytes. -/
def lineSizes : SkbSizes := ⟨fun n => (n + 63) / 64 * 64, 64⟩

theorem headInput_fourHeaderBytes {newHead : Option ℕ}
    (h : ∀ fresh, newHead = some fresh → fresh = 1) :
    HeadInput fourHeaderBytes 0 2 0 2048 newHead where
  header := rfl
  start := rfl
  alive := by decide
  tail := rfl
  tail_le := by decide
  fits := by decide
  pages f hf := by cases hf
  free fresh hfresh := by
    rw [h fresh hfresh]
    rfl

theorem expand_head_preserves_without_memory :
    HeadInput fourHeaderBytes 0 2 0 2048 none ∧
      ExpandMeets lineSizes fourHeaderBytes 0 2 0 none := by
  have hinput : HeadInput fourHeaderBytes 0 2 0 2048 none :=
    headInput_fourHeaderBytes fun fresh hfresh => by cases hfresh
  exact ⟨hinput, (expand_head_preserves_iff hinput).mpr rfl⟩

/-- Two more bytes of headroom: the driver sends the old buffer, which went back to its pool,
from two bytes further on. -/
theorem expand_head_changes_packet :
    HeadInput fourHeaderBytes 0 2 0 2048 (some 1) ∧
      ¬ ExpandMeets lineSizes fourHeaderBytes 0 2 0 (some 1) := by
  refine ⟨headInput_fourHeaderBytes fun fresh hfresh => (Option.some.inj hfresh).symm, ?_⟩
  have hret : (fourHeaderBytes.pskbExpandHead lineSizes 0 2 0 (some 1)).2 = 0 := rfl
  have hsent : (fourHeaderBytes.pskbExpandHead lineSizes 0 2 0 (some 1)).1.emitted 0 =
      some ⟨[130, 131, 132, 133], 4⟩ := by decide +kernel
  have hbefore : fourHeaderBytes.emitted 0 = some ⟨[128, 129, 130, 131], 4⟩ := by decide +kernel
  intro hmeets
  unfold ExpandMeets at hmeets
  dsimp only at hmeets
  rw [if_pos hret] at hmeets
  obtain ⟨-, -, -, -, -, -, hemitted⟩ := hmeets
  rw [hsent, hbefore] at hemitted
  revert hemitted
  decide

end IpAugenblick
