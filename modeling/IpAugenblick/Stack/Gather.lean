/-
# Gathering a datagram from an iovec

The payload of a datagram is a chain of packet buffers behind an iovec, and the
functions of `mm_porting.c` that take a range of it are three loops over the chain.  They
skip to the start of the range.  None of them looks for its end:
`memcpy_fromiovecend` and `csum_partial_copy_fromiovecend` make fragments of
everything from there on, and `memcpy_fromiovecend2` copies whole segments until it
has enough.  The checksum is computed for each segment and then put back to what it was.
-/

import IpAugenblick.Lib.OnesComplement
import IpAugenblick.Stack.Iovec
import IpAugenblick.Stack.MakeSkb
import IpAugenblick.Stack.Segments

namespace IpAugenblick

open Lib

structure GatherSkb where
  len : BitVec 32
  dataLen : BitVec 32
  /-- The first `nr_frags` of `frags`; what is behind `MAX_SKB_FRAGS` is behind the array. -/
  frags : List Frag
  csum : BitVec 32
  ipSummed : IpSummed

namespace GatherSkb

variable (skb : GatherSkb)

/-- `skb_fill_page_desc` of the fragment `nr_frags`. -/
def skbFillPageDesc (page pageOffset size : ℕ) : GatherSkb :=
  { skb with frags := skb.frags ++ [⟨page, pageOffset, size⟩] }

/-- `skb->len` and `skb->data_len` grow. -/
def grow (n : ℕ) : GatherSkb :=
  { skb with
    len := skb.len + BitVec.ofNat 32 n
    dataLen := skb.dataLen + BitVec.ofNat 32 n }

end GatherSkb

section Code

variable (M : MbufMem)

def memcpyFromiovecendLoop : ℕ → Option ℕ → ℕ → GatherSkb → GatherSkb
  | 0, _, _, skb => skb
  | _ + 1, none, _, skb => skb
  | n + 1, some mbuf, offset, skb =>
      let dataLen := (M.mbuf mbuf).dataLen
      if offset < dataLen then
        memcpyFromiovecendLoop n (M.next mbuf) 0
          ((skb.skbFillPageDesc mbuf offset (dataLen - offset)).grow (dataLen - offset))
      else memcpyFromiovecendLoop n (M.next mbuf) (offset - dataLen) skb

/-- `memcpy_fromiovecend`, which does not use its last argument. -/
def memcpyFromiovecend (skb : GatherSkb) (iov : Iovec) (offset _len : ℕ) : GatherSkb :=
  memcpyFromiovecendLoop M M.size iov.head offset skb

/-- The loop of `csum_partial_copy_fromiovecend`, with `*csump`. -/
def csumPartialCopyLoop (csumPartial : List UInt8 → BitVec 32 → BitVec 32) (csum : BitVec 32) :
    ℕ → Option ℕ → ℕ → GatherSkb × BitVec 32 → GatherSkb × BitVec 32
  | 0, _, _, s => s
  | _ + 1, none, _, s => s
  | n + 1, some mbuf, offset, s =>
      let dataLen := (M.mbuf mbuf).dataLen
      if offset < dataLen then
        csumPartialCopyLoop csumPartial csum n (M.next mbuf) 0
          ((s.1.skbFillPageDesc mbuf offset (dataLen - offset)).grow (dataLen - offset),
            csumPartial ((M.mbuf mbuf).data.drop offset) csum)
      else csumPartialCopyLoop csumPartial csum n (M.next mbuf) (offset - dataLen) s

/-- `csum_partial_copy_fromiovecend`: the skb and `*csump`. -/
def csumPartialCopyFromiovecend (csumPartial : List UInt8 → BitVec 32 → BitVec 32)
    (skb : GatherSkb) (iov : Iovec) (offset _len : ℕ) (csump : BitVec 32) :
    GatherSkb × BitVec 32 :=
  let csum := csump
  let done := csumPartialCopyLoop M csumPartial csum M.size iov.head offset (skb, csump)
  (done.1, csum)

def csumAdd (csum addend : BitVec 32) : BitVec 32 :=
  let res := csum + addend
  res + if res < addend then 1 else 0

def csumBlockAdd (csum csum2 : BitVec 32) (odd : Bool) : BitVec 32 :=
  let sum := if odd then ((csum2 &&& 0xFF00FF) <<< 8) + ((csum2 >>> 8) &&& 0xFF00FF) else csum2
  csumAdd csum sum

/-- `ip_generic_getfrag`; `odd` is the parity of what is in the skb already. -/
def ipGenericGetfrag (csumPartial : List UInt8 → BitVec 32 → BitVec 32) (iov : Iovec)
    (offset len : ℕ) (odd : Bool) (skb : GatherSkb) : GatherSkb :=
  match skb.ipSummed with
  | .checksumPartial => memcpyFromiovecend M skb iov offset len
  | .checksumNone =>
      let done := csumPartialCopyFromiovecend M csumPartial skb iov offset len 0
      { done.1 with csum := csumBlockAdd done.1.csum done.2 odd }

/-- The memory from `kdata` on, and which of it was stored to. -/
structure Kdata where
  mem : ℕ → UInt8
  stored : ℕ → Bool

/-- `rte_memcpy` to an offset. -/
def Kdata.rteMemcpy (k : Kdata) (off : ℕ) (bs : List UInt8) : Kdata where
  mem j := if off ≤ j ∧ j < off + bs.length then bs.getD (j - off) 0 else k.mem j
  stored j := k.stored j || decide (off ≤ j ∧ j < off + bs.length)

/-- The loop of `memcpy_fromiovecend2`, with `copied`. -/
def memcpyFromiovecend2Loop (len : ℕ) : ℕ → Option ℕ → ℕ → ℕ → Kdata → ℕ × Kdata
  | 0, _, _, copied, k => (copied, k)
  | _ + 1, none, _, copied, k => (copied, k)
  | n + 1, some mbuf, offset, copied, k =>
      let dataLen := (M.mbuf mbuf).dataLen
      if copied < len then
        if offset < dataLen then
          memcpyFromiovecend2Loop len n (M.next mbuf) 0 (copied + (dataLen - offset))
            (k.rteMemcpy copied ((M.mbuf mbuf).data.drop offset))
        else memcpyFromiovecend2Loop len n (M.next mbuf) (offset - dataLen) copied k
      else (copied, k)

/-- `memcpy_fromiovecend2`: the memory and the return value. -/
def memcpyFromiovecend2 (kdata : ℕ → UInt8) (iov : Iovec) (offset len : ℕ) : Kdata × Bool :=
  let done := memcpyFromiovecend2Loop M len M.size iov.head offset 0 ⟨kdata, fun _ => false⟩
  (done.2, decide (done.1 = len))

end Code

/-! ## What is asked for -/

def chainRange (M : MbufMem) (ids : List ℕ) (offset len : ℕ) : List UInt8 :=
  ((bytesOf M ids).drop offset).take len

/-- The skb got fragments with these bytes. -/
structure FragsAdded (M : MbufMem) (before after : GatherSkb) (bytes : List UInt8) : Prop where
  frags : ∃ new, after.frags = before.frags ++ new ∧ fragBytes M new = bytes
  len : after.len = before.len + BitVec.ofNat 32 bytes.length
  dataLen : after.dataLen = before.dataLen + BitVec.ofNat 32 bytes.length
  room : after.frags.length ≤ maxSkbFrags

/-- A checksum is the one's-complement sum of another one and some bytes. -/
def SumOf (csum' csum : BitVec 32) (n : ℕ) : Prop :=
  csum'.toNat % 65535 = (csum.toNat + n) % 65535

/-- The memory from `kdata` on got these bytes, and nothing behind them was stored to. -/
structure KdataGot (after : Kdata) (bytes : List UInt8) : Prop where
  got : ∀ j, j < bytes.length → after.mem j = bytes.getD j 0
  stored : ∀ j, after.stored j = true → j < bytes.length

/-- How many segments have bytes at or behind the offset. -/
def segmentsBehind : ℕ → List ℕ → ℕ
  | _, [] => 0
  | offset, l :: ls => (if offset < l then 1 else 0) + segmentsBehind (offset - l) ls

/-! ## The fragments -/

variable {M : MbufMem} {ids : List ℕ} {offset len : ℕ} {skb : GatherSkb}

/-- The fragments that everything from the offset on becomes. -/
def restFrags (M : MbufMem) : ℕ → List ℕ → List Frag
  | _, [] => []
  | offset, x :: ids =>
      let dataLen := (M.mbuf x).dataLen
      if offset < dataLen then ⟨x, offset, dataLen - offset⟩ :: restFrags M 0 ids
      else restFrags M (offset - dataLen) ids

theorem length_restFrags (M : MbufMem) (ids : List ℕ) (offset : ℕ) :
    (restFrags M offset ids).length = segmentsBehind offset (lensOf M ids) := by
  induction ids generalizing offset with
  | nil => rfl
  | cons x ids ih =>
      rw [lensOf_cons, restFrags, segmentsBehind]
      split
      · rename_i hlt
        rw [List.length_cons, ih, Nat.sub_eq_zero_of_le hlt.le, Nat.add_comm]
      · rw [ih, Nat.zero_add]

theorem bytesOf_cons (M : MbufMem) (x : ℕ) (ids : List ℕ) :
    bytesOf M (x :: ids) = (M.mbuf x).data ++ bytesOf M ids := rfl

/-- Behind the end of a segment the chain goes on with the next. -/
theorem drop_bytesOf_cons (M : MbufMem) (x : ℕ) (ids : List ℕ) (offset : ℕ) :
    (bytesOf M (x :: ids)).drop offset =
      (M.mbuf x).data.drop offset ++ (bytesOf M ids).drop (offset - (M.mbuf x).dataLen) := by
  rw [bytesOf_cons, List.drop_append, Mbuf.length_data]

theorem fragBytes_restFrags (M : MbufMem) (ids : List ℕ) (offset : ℕ) :
    fragBytes M (restFrags M offset ids) = (bytesOf M ids).drop offset := by
  induction ids generalizing offset with
  | nil => simp [restFrags, fragBytes, bytesOf]
  | cons x ids ih =>
      rw [restFrags, drop_bytesOf_cons]
      split
      · rename_i hlt
        have hwindow := (M.mbuf x).slice_eq_window
          (show offset + ((M.mbuf x).dataLen - offset) ≤ (M.mbuf x).dataLen by omega)
        rw [List.take_of_length_le (by simp)] at hwindow
        rw [fragBytes, List.flatMap_cons, hwindow, ← fragBytes, ih,
          Nat.sub_eq_zero_of_le hlt.le]
      · rename_i hge
        have hempty : (M.mbuf x).data.drop offset = [] :=
          List.drop_eq_nil_of_le (by simpa using hge)
        rw [ih, hempty, List.nil_append]

theorem length_bytesOf_cons (M : MbufMem) (x : ℕ) (ids : List ℕ) :
    (bytesOf M (x :: ids)).length = (M.mbuf x).dataLen + (bytesOf M ids).length := by
  rw [bytesOf_cons, List.length_append, Mbuf.length_data]

/-- The skb after everything from the offset on has become fragments. -/
def gathered (M : MbufMem) (ids : List ℕ) (offset : ℕ) (skb : GatherSkb) : GatherSkb :=
  ({ skb with frags := skb.frags ++ restFrags M offset ids }).grow
    ((bytesOf M ids).length - offset)

/-- **The loop over the chain** makes fragments of everything from the offset on. -/
theorem memcpyFromiovecendLoop_eq (M : MbufMem) (ids : List ℕ) :
    ∀ (fuel : ℕ) (p : Option ℕ) (offset : ℕ) (skb : GatherSkb), Linked M.next p ids →
      ids.length ≤ fuel →
      memcpyFromiovecendLoop M fuel p offset skb = gathered M ids offset skb := by
  induction ids with
  | nil =>
      intro fuel p offset skb hlinked _
      obtain rfl : p = none := hlinked
      cases fuel <;>
        simp [memcpyFromiovecendLoop, gathered, restFrags, bytesOf, GatherSkb.grow]
  | cons x ids ih =>
      rintro fuel p offset skb ⟨rfl, hrest⟩ hfuel
      rw [List.length_cons] at hfuel
      obtain ⟨n, rfl⟩ : ∃ n, fuel = n + 1 := ⟨fuel - 1, by omega⟩
      replace hfuel : ids.length ≤ n := by omega
      unfold memcpyFromiovecendLoop gathered
      rw [restFrags, length_bytesOf_cons]
      dsimp only
      split
      · rename_i hlt
        have hsum : (M.mbuf x).dataLen + (bytesOf M ids).length - offset =
            ((M.mbuf x).dataLen - offset) + (bytesOf M ids).length := by omega
        rw [ih n _ 0 _ hrest hfuel, hsum]
        simp [gathered, GatherSkb.grow, GatherSkb.skbFillPageDesc, BitVec.ofNat_add,
          BitVec.add_assoc]
      · rename_i hge
        have hsum : (M.mbuf x).dataLen + (bytesOf M ids).length - offset =
            (bytesOf M ids).length - (offset - (M.mbuf x).dataLen) := by omega
        rw [ih n _ _ _ hrest hfuel, hsum]
        rfl

/-- The checksum makes no difference to the skb. -/
theorem csumPartialCopyLoop_fst (M : MbufMem) (csumPartial : List UInt8 → BitVec 32 → BitVec 32)
    (csum : BitVec 32) (fuel : ℕ) :
    ∀ (p : Option ℕ) (offset : ℕ) (s : GatherSkb × BitVec 32),
      (csumPartialCopyLoop M csumPartial csum fuel p offset s).1 =
        memcpyFromiovecendLoop M fuel p offset s.1 := by
  induction fuel with
  | zero => exact fun _ _ _ => rfl
  | succ n ih =>
      intro p offset s
      cases p with
      | none => rfl
      | some mbuf =>
          unfold csumPartialCopyLoop memcpyFromiovecendLoop
          dsimp only
          split
          · exact ih _ _ _
          · exact ih _ _ _

/-- An iovec with a chain of buffers that were handed out. -/
structure IovecOf (M : MbufMem) (iov : Iovec) (ids : List ℕ) : Prop where
  linked : Linked M.next iov.head ids
  made : ∀ i ∈ ids, i < M.size

theorem IovecOf.length_le {iov : Iovec} (h : IovecOf M iov ids) : ids.length ≤ M.size :=
  MbufMem.length_le_size h.linked.nodup h.made

theorem memcpyFromiovecend_eq {iov : Iovec} (h : IovecOf M iov ids) :
    memcpyFromiovecend M skb iov offset len = gathered M ids offset skb :=
  memcpyFromiovecendLoop_eq M ids _ _ _ _ h.linked h.length_le

theorem csumPartialCopyFromiovecend_eq {iov : Iovec} (h : IovecOf M iov ids)
    (csumPartial : List UInt8 → BitVec 32 → BitVec 32) (csump : BitVec 32) :
    csumPartialCopyFromiovecend M csumPartial skb iov offset len csump =
      (gathered M ids offset skb, csump) := by
  unfold csumPartialCopyFromiovecend
  dsimp only
  rw [csumPartialCopyLoop_fst, memcpyFromiovecendLoop_eq M ids _ _ _ _ h.linked h.length_le]

/-- Everything from the offset on is the range when the range goes to the end. -/
theorem fragsAdded_gathered_iff (hfit : offset + len ≤ (bytesOf M ids).length) :
    FragsAdded M skb (gathered M ids offset skb) (chainRange M ids offset len) ↔
      offset + len = (bytesOf M ids).length ∧
        skb.frags.length + segmentsBehind offset (lensOf M ids) ≤ maxSkbFrags := by
  have hroom : (gathered M ids offset skb).frags.length =
      skb.frags.length + segmentsBehind offset (lensOf M ids) := by
    simp [gathered, GatherSkb.grow, length_restFrags]
  constructor
  · rintro ⟨⟨new, hnew, hbytes⟩, -, -, hsmall⟩
    refine ⟨?_, hroom ▸ hsmall⟩
    obtain rfl : restFrags M offset ids = new := List.append_cancel_left hnew
    rw [fragBytes_restFrags, chainRange] at hbytes
    have hlen := congrArg List.length hbytes
    rw [List.length_take, List.length_drop] at hlen
    omega
  · rintro ⟨hend, hsmall⟩
    have hrange : chainRange M ids offset len = (bytesOf M ids).drop offset := by
      unfold chainRange
      rw [List.take_of_length_le]
      rw [List.length_drop]
      omega
    rw [hrange]
    refine ⟨⟨_, rfl, fragBytes_restFrags M ids offset⟩, ?_, ?_, hroom ▸ hsmall⟩
    · rw [List.length_drop]
      rfl
    · rw [List.length_drop]
      rfl

/-! ## The copy -/

/-- The bytes of whole segments from the offset on, until `need` are there. -/
def wholeSegments (M : MbufMem) : ℕ → ℕ → List ℕ → List UInt8
  | _, _, [] => []
  | offset, need, x :: ids =>
      if need = 0 then []
      else if offset < (M.mbuf x).dataLen then
        (M.mbuf x).data.drop offset ++
          wholeSegments M 0 (need - ((M.mbuf x).dataLen - offset)) ids
      else wholeSegments M (offset - (M.mbuf x).dataLen) need ids

theorem wholeSegments_zero (M : MbufMem) (offset : ℕ) (ids : List ℕ) :
    wholeSegments M offset 0 ids = [] := by
  cases ids with
  | nil => rfl
  | cons x ids => rw [wholeSegments, if_pos rfl]

theorem wholeSegments_initial (M : MbufMem) (ids : List ℕ) :
    ∀ offset need, wholeSegments M offset need ids <+: (bytesOf M ids).drop offset := by
  induction ids with
  | nil => exact fun _ _ => List.nil_prefix
  | cons x ids ih =>
      intro offset need
      rw [wholeSegments, drop_bytesOf_cons]
      split_ifs with hneed hlt
      · exact List.nil_prefix
      · have htail := ih 0 (need - ((M.mbuf x).dataLen - offset))
        rw [Nat.sub_eq_zero_of_le hlt.le]
        exact (List.prefix_append_right_inj _).mpr htail
      · have hempty : (M.mbuf x).data.drop offset = [] :=
          List.drop_eq_nil_of_le (by simpa using hlt)
        rw [hempty, List.nil_append]
        exact ih _ _

theorem need_le_length_wholeSegments (M : MbufMem) (ids : List ℕ) :
    ∀ offset need, offset + need ≤ (bytesOf M ids).length →
      need ≤ (wholeSegments M offset need ids).length := by
  induction ids with
  | nil =>
      intro offset need hfit
      simp only [bytesOf, List.flatMap_nil, List.length_nil] at hfit
      omega
  | cons x ids ih =>
      intro offset need hfit
      rw [length_bytesOf_cons] at hfit
      rw [wholeSegments]
      split_ifs with hneed hlt
      · omega
      · have htail := ih 0 (need - ((M.mbuf x).dataLen - offset)) (by omega)
        rw [List.length_append, List.length_drop, Mbuf.length_data]
        omega
      · exact ih _ _ (by omega)

/-- Whole segments are just enough when the range is empty or ends where a segment does. -/
theorem length_wholeSegments_iff (M : MbufMem) (ids : List ℕ) :
    ∀ offset need, offset + need ≤ (bytesOf M ids).length →
      ((wholeSegments M offset need ids).length = need ↔
        need = 0 ∨ Boundary (fun x => (M.mbuf x).dataLen) ids (offset + need)) := by
  induction ids with
  | nil =>
      intro offset need hfit
      simp only [bytesOf, List.flatMap_nil, List.length_nil] at hfit
      obtain rfl : need = 0 := by omega
      simp [wholeSegments]
  | cons x ids ih =>
      intro offset need hfit
      rw [length_bytesOf_cons] at hfit
      by_cases hneed : need = 0
      · simp [hneed, wholeSegments]
      rw [wholeSegments, if_neg hneed, boundary_cons]
      split_ifs with hlt
      · rw [List.length_append, List.length_drop, Mbuf.length_data]
        by_cases hstop : need ≤ (M.mbuf x).dataLen - offset
        · rw [Nat.sub_eq_zero_of_le hstop, wholeSegments_zero, List.length_nil]
          constructor
          · intro heq
            exact .inr (.inr ⟨0, boundary_zero, by omega⟩)
          · rintro (h | h | ⟨m, -, heq⟩) <;> omega
        · have htail := ih 0 (need - ((M.mbuf x).dataLen - offset)) (by omega)
          rw [Nat.zero_add] at htail
          constructor
          · intro heq
            rcases htail.mp (by omega) with h | h
            · omega
            · exact .inr (.inr ⟨_, h, by omega⟩)
          · rintro (h | h | ⟨m, hm, heq⟩)
            · omega
            · omega
            · obtain rfl : m = need - ((M.mbuf x).dataLen - offset) := by omega
              have := htail.mpr (.inr hm)
              omega
      · rw [ih _ _ (by omega)]
        constructor
        · rintro (h | h)
          · exact .inl h
          · exact .inr (.inr ⟨_, h, by omega⟩)
        · rintro (h | h | ⟨m, hm, heq⟩)
          · exact .inl h
          · omega
          · obtain rfl : m = offset - (M.mbuf x).dataLen + need := by omega
            exact .inr hm

theorem Kdata.rteMemcpy_nil (k : Kdata) (off : ℕ) : k.rteMemcpy off [] = k := by
  obtain ⟨mem, stored⟩ := k
  have hnone : ∀ j, ¬ (off ≤ j ∧ j < off) := fun j hj => by omega
  simp [Kdata.rteMemcpy, hnone]

/-- Two adjacent copies make one. -/
theorem Kdata.rteMemcpy_append (k : Kdata) (off : ℕ) (as bs : List UInt8) :
    (k.rteMemcpy off as).rteMemcpy (off + as.length) bs = k.rteMemcpy off (as ++ bs) := by
  unfold Kdata.rteMemcpy
  congr 1
  · funext j
    dsimp only
    by_cases hfirst : off ≤ j ∧ j < off + as.length
    · have hnot : ¬ (off + as.length ≤ j ∧ j < off + as.length + bs.length) := by omega
      have hall : off ≤ j ∧ j < off + (as ++ bs).length := by
        rw [List.length_append]
        omega
      rw [if_neg hnot, if_pos hfirst, if_pos hall, List.getD_append _ _ _ _ (by omega)]
    · by_cases hsecond : off + as.length ≤ j ∧ j < off + as.length + bs.length
      · have hall : off ≤ j ∧ j < off + (as ++ bs).length := by
          rw [List.length_append]
          omega
        rw [if_pos hsecond, if_pos hall, List.getD_append_right _ _ _ _ (by omega), Nat.sub_sub]
      · have hall : ¬ (off ≤ j ∧ j < off + (as ++ bs).length) := by
          rw [List.length_append]
          omega
        rw [if_neg hsecond, if_neg hfirst, if_neg hall]
  · funext j
    simp only [List.length_append, Bool.or_assoc, ← Bool.decide_or]
    congr 2
    apply propext
    omega

/-- **The loop over the chain** copies whole segments. -/
theorem memcpyFromiovecend2Loop_eq (M : MbufMem) (len : ℕ) (ids : List ℕ) :
    ∀ (fuel : ℕ) (p : Option ℕ) (offset copied : ℕ) (k : Kdata), Linked M.next p ids →
      ids.length ≤ fuel →
      memcpyFromiovecend2Loop M len fuel p offset copied k =
        (copied + (wholeSegments M offset (len - copied) ids).length,
          k.rteMemcpy copied (wholeSegments M offset (len - copied) ids)) := by
  induction ids with
  | nil =>
      intro fuel p offset copied k hlinked _
      obtain rfl : p = none := hlinked
      cases fuel <;> simp [memcpyFromiovecend2Loop, wholeSegments, k.rteMemcpy_nil]
  | cons x ids ih =>
      rintro fuel p offset copied k ⟨rfl, hrest⟩ hfuel
      rw [List.length_cons] at hfuel
      obtain ⟨n, rfl⟩ : ∃ n, fuel = n + 1 := ⟨fuel - 1, by omega⟩
      replace hfuel : ids.length ≤ n := by omega
      unfold memcpyFromiovecend2Loop
      dsimp only
      rw [wholeSegments]
      by_cases hmore : copied < len
      · rw [if_pos hmore, if_neg (by omega : ¬ len - copied = 0)]
        split
        · rename_i hlt
          have hdrop : ((M.mbuf x).data.drop offset).length = (M.mbuf x).dataLen - offset := by
            simp
          rw [ih n _ _ _ _ hrest hfuel, ← Nat.sub_sub, ← hdrop, Kdata.rteMemcpy_append,
            List.length_append, Nat.add_assoc]
        · exact ih n _ _ _ _ hrest hfuel
      · rw [if_neg hmore, if_pos (by omega : len - copied = 0), k.rteMemcpy_nil]
        rfl

/-- Whole segments are the range when the range is empty or ends where a segment does. -/
theorem kdataGot_iff {iov : Iovec} (h : IovecOf M iov ids) (kdata : ℕ → UInt8)
    (hfit : offset + len ≤ (bytesOf M ids).length) :
    KdataGot (memcpyFromiovecend2 M kdata iov offset len).1 (chainRange M ids offset len) ↔
      len = 0 ∨ Boundary (fun x => (M.mbuf x).dataLen) ids (offset + len) := by
  rw [← length_wholeSegments_iff M ids offset len hfit]
  unfold memcpyFromiovecend2
  dsimp only
  rw [memcpyFromiovecend2Loop_eq M len ids _ _ _ _ _ h.linked h.length_le, Nat.sub_zero]
  have henough := need_le_length_wholeSegments M ids offset len hfit
  obtain ⟨rest, hrest⟩ := wholeSegments_initial M ids offset len
  have hlength : (chainRange M ids offset len).length = len := by
    unfold chainRange
    rw [List.length_take, List.length_drop]
    omega
  constructor
  · rintro ⟨-, hstored⟩
    by_contra hne
    have := hstored len (by simp [Kdata.rteMemcpy]; omega)
    omega
  · intro heq
    have hrange : chainRange M ids offset len = wholeSegments M offset len ids := by
      unfold chainRange
      rw [← hrest, List.take_left' heq]
    rw [hrange]
    constructor
    · intro j hj
      simp [Kdata.rteMemcpy, hj]
    · intro j hj
      simpa [Kdata.rteMemcpy] using hj

/-! ## The checksum -/

theorem sumOf_self_iff (csum : BitVec 32) (n : ℕ) : SumOf csum csum n ↔ n % 65535 = 0 := by
  unfold SumOf
  omega

theorem csumBlockAdd_zero (csum : BitVec 32) (odd : Bool) : csumBlockAdd csum 0 odd = csum := by
  cases odd <;> simp [csumBlockAdd, csumAdd]

/-- What an odd start does to the sum of the bytes: it swaps the bytes of the words. -/
def shifted (odd : Bool) (n : ℕ) : ℕ := if odd then 256 * n else n

theorem shifted_mod_iff (odd : Bool) (n : ℕ) : shifted odd n % 65535 = 0 ↔ n % 65535 = 0 := by
  cases odd with
  | false => rfl
  | true =>
      simp only [shifted, if_true]
      omega

/-- **Which ranges are gathered.**  The fragments are those of the range when it goes to the
end of the chain and the fragments have room; the checksum is that of the range when it is
zero; the copy is that of the range when it is empty or ends where a segment does. -/
theorem gathers_range_iff {iov : Iovec} (h : IovecOf M iov ids)
    (hfit : offset + len ≤ (bytesOf M ids).length)
    (csumPartial : List UInt8 → BitVec 32 → BitVec 32) (skb : GatherSkb) (csump : BitVec 32)
    (kdata : ℕ → UInt8) (odd : Bool) :
    (FragsAdded M skb (memcpyFromiovecend M skb iov offset len) (chainRange M ids offset len) ↔
      offset + len = (bytesOf M ids).length ∧
        skb.frags.length + segmentsBehind offset (lensOf M ids) ≤ maxSkbFrags) ∧
    (FragsAdded M skb (csumPartialCopyFromiovecend M csumPartial skb iov offset len csump).1
        (chainRange M ids offset len) ∧
      SumOf (csumPartialCopyFromiovecend M csumPartial skb iov offset len csump).2 csump
        (wordSum (chainRange M ids offset len)) ↔
      (offset + len = (bytesOf M ids).length ∧
        skb.frags.length + segmentsBehind offset (lensOf M ids) ≤ maxSkbFrags) ∧
        wordSum (chainRange M ids offset len) % 65535 = 0) ∧
    (skb.ipSummed = .checksumNone →
      (SumOf (ipGenericGetfrag M csumPartial iov offset len odd skb).csum skb.csum
          (shifted odd (wordSum (chainRange M ids offset len))) ↔
        wordSum (chainRange M ids offset len) % 65535 = 0)) ∧
    (KdataGot (memcpyFromiovecend2 M kdata iov offset len).1 (chainRange M ids offset len) ↔
      len = 0 ∨ Boundary (fun x => (M.mbuf x).dataLen) ids (offset + len)) := by
  refine ⟨?_, ?_, ?_, kdataGot_iff h kdata hfit⟩
  · rw [memcpyFromiovecend_eq h, fragsAdded_gathered_iff hfit]
  · rw [csumPartialCopyFromiovecend_eq h, fragsAdded_gathered_iff hfit, sumOf_self_iff]
  · intro hnone
    unfold ipGenericGetfrag
    rw [hnone]
    dsimp only
    rw [csumPartialCopyFromiovecend_eq h, csumBlockAdd_zero]
    exact (sumOf_self_iff skb.csum _).trans (shifted_mod_iff odd _)

def threeBytes : MbufMem where
  mbuf _ := ⟨0, 3, 3, 1, none, 1, fun j => UInt8.ofNat (j + 1)⟩
  size := 1
  frees := []
  puts := []

/-- A chain of three buffers with three, one and one bytes. -/
def fiveBytes : MbufMem where
  mbuf
    | 0 => ⟨0, 3, 5, 3, some 1, 1, fun j => [7, 1, 2].getD j 0⟩
    | 1 => ⟨0, 1, 1, 1, some 2, 1, fun _ => 254⟩
    | _ => ⟨0, 1, 1, 1, none, 1, fun _ => 253⟩
  size := 3
  frees := []
  puts := []

def bareSkb : GatherSkb := ⟨28, 0, [], 0, .checksumNone⟩

theorem iovecOf_fiveBytes : IovecOf fiveBytes ⟨some 0, some 2, 5⟩ [0, 1, 2] where
  linked := ⟨rfl, rfl, rfl, rfl⟩
  made := by simp [fiveBytes]

/-- The sum of the words with its carry, as `csum_partial` returns it for a short buffer. -/
def shortCsumPartial (bytes : List UInt8) (sum : BitVec 32) : BitVec 32 :=
  csumAdd (BitVec.ofNat 32 (wordSum bytes)) sum

/-- The range begins inside the first of three buffers and goes to the end of the chain, and its
words add up to zero in one's complement, so all four functions do what is asked. -/
theorem gathers_range_whole :
    FragsAdded fiveBytes bareSkb
        (memcpyFromiovecend fiveBytes bareSkb ⟨some 0, some 2, 5⟩ 1 4)
        (chainRange fiveBytes [0, 1, 2] 1 4) ∧
      (FragsAdded fiveBytes bareSkb
        (csumPartialCopyFromiovecend fiveBytes shortCsumPartial bareSkb
          ⟨some 0, some 2, 5⟩ 1 4 0).1 (chainRange fiveBytes [0, 1, 2] 1 4) ∧
        SumOf (csumPartialCopyFromiovecend fiveBytes shortCsumPartial bareSkb
          ⟨some 0, some 2, 5⟩ 1 4 0).2 0 (wordSum (chainRange fiveBytes [0, 1, 2] 1 4))) ∧
      SumOf (ipGenericGetfrag fiveBytes shortCsumPartial ⟨some 0, some 2, 5⟩ 1 4 false
        bareSkb).csum bareSkb.csum
          (shifted false (wordSum (chainRange fiveBytes [0, 1, 2] 1 4))) ∧
      KdataGot (memcpyFromiovecend2 fiveBytes (fun _ => 0) ⟨some 0, some 2, 5⟩ 1 4).1
        (chainRange fiveBytes [0, 1, 2] 1 4) := by
  have hfit : 1 + 4 ≤ (bytesOf fiveBytes [0, 1, 2]).length := by decide
  have hwhole : 1 + 4 = (bytesOf fiveBytes [0, 1, 2]).length ∧
      bareSkb.frags.length + segmentsBehind 1 (lensOf fiveBytes [0, 1, 2]) ≤ maxSkbFrags := by
    decide
  have hsum : wordSum (chainRange fiveBytes [0, 1, 2] 1 4) % 65535 = 0 := by decide
  have h := gathers_range_iff iovecOf_fiveBytes hfit shortCsumPartial bareSkb 0 (fun _ => 0) false
  exact ⟨h.1.mpr hwhole, h.2.1.mpr ⟨hwhole, hsum⟩, (h.2.2.1 rfl).mpr hsum,
    h.2.2.2.mpr (.inr ⟨[0, 1, 2], by decide, by decide⟩)⟩

/-- The first two of three bytes: three become a fragment, three are copied, and the
checksum is that of none. -/
theorem gathers_more_than_range :
    ¬ FragsAdded threeBytes bareSkb
        (memcpyFromiovecend threeBytes bareSkb ⟨some 0, some 0, 3⟩ 0 2)
        (chainRange threeBytes [0] 0 2) ∧
      ¬ SumOf (csumPartialCopyFromiovecend threeBytes shortCsumPartial bareSkb
          ⟨some 0, some 0, 3⟩ 0 2 0).2 0 (wordSum (chainRange threeBytes [0] 0 2)) ∧
      ¬ KdataGot (memcpyFromiovecend2 threeBytes (fun _ => 0) ⟨some 0, some 0, 3⟩ 0 2).1
        (chainRange threeBytes [0] 0 2) := by
  refine ⟨?_, by unfold SumOf; decide, ?_⟩
  · rintro ⟨-, hlen, -, -⟩
    revert hlen
    decide
  · rintro ⟨-, hstored⟩
    exact absurd (hstored 2 (by decide)) (by decide)

end IpAugenblick
