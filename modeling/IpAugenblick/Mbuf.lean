/-
# Packet buffers

The `rte_mbuf` of the packet library: a buffer with a window of valid data, a
link to the next segment of its packet and a reference count.  Buffers are
numbered; a number stands for one allocation, so a buffer that went back to its
pool and is touched again is visible as such.

The operations follow `rte_mbuf.h`.  `rte_pktmbuf_refcnt_update` and
`rte_pktmbuf_free` walk the whole chain, `rte_pktmbuf_free_seg` touches one
segment and hands it back to the pool when its count reaches zero.
-/

import IpAugenblick.Lib.Linked
import Mathlib.Tactic.Ring
import Mathlib.Data.List.GetD
import Mathlib.Data.List.Perm.Subperm
import Mathlib.Algebra.Order.Ring.Int

namespace IpAugenblick

open Lib

/-- One packet buffer.  `buf` is the memory behind `buf_addr`. -/
@[ext]
structure Mbuf where
  dataOff : ℕ
  dataLen : ℕ
  pktLen : ℕ
  nbSegs : ℕ
  next : Option ℕ
  /-- `refcnt` as an integer, so that one drop too many shows as a negative count. -/
  refcnt : ℤ
  buf : ℕ → UInt8

namespace Mbuf

/-- `len` bytes of the buffer from offset `off`. -/
def slice (m : Mbuf) (off len : ℕ) : List UInt8 :=
  (List.range len).map fun i => m.buf (off + i)

/-- The valid data of a segment, what `rte_pktmbuf_mtod` points at. -/
def data (m : Mbuf) : List UInt8 := m.slice m.dataOff m.dataLen

@[simp]
theorem length_slice (m : Mbuf) (off len : ℕ) : (m.slice off len).length = len := by
  simp [slice]

@[simp]
theorem length_data (m : Mbuf) : m.data.length = m.dataLen := by
  simp [data]

/-- Two adjacent windows make one. -/
theorem slice_add (m : Mbuf) (off a b : ℕ) :
    m.slice off (a + b) = m.slice off a ++ m.slice (off + a) b := by
  simp [slice, List.range_add, Nat.add_assoc, Function.comp_def]

theorem slice_eq_window (m : Mbuf) {off size : ℕ} (hfit : off + size ≤ m.dataLen) :
    m.slice (m.dataOff + off) size = (m.data.drop off).take size := by
  have hsplit : m.dataLen = off + (size + (m.dataLen - (off + size))) := by omega
  unfold data
  rw [hsplit, slice_add, slice_add, List.drop_left', List.take_left']
  · simp
  · simp

/-- `memcpy` of `bs` to offset `off` of the buffer. -/
def write (m : Mbuf) (off : ℕ) (bs : List UInt8) : Mbuf :=
  { m with buf := fun j => if off ≤ j then bs.getD (j - off) (m.buf j) else m.buf j }

/-- Two adjacent copies make one. -/
theorem write_append (m : Mbuf) (off : ℕ) (as bs : List UInt8) :
    (m.write off as).write (off + as.length) bs = m.write off (as ++ bs) := by
  unfold write
  congr 1
  funext j
  by_cases hoff : off ≤ j
  · by_cases hfirst : j - off < as.length
    · have hnot : ¬ off + as.length ≤ j := by omega
      simp only [hoff, hnot, if_true, if_false, List.getD_append _ _ _ _ hfirst]
    · have hsecond : off + as.length ≤ j := by omega
      have hbeyond : as.length ≤ j - off := by omega
      have hindex : j - (off + as.length) = j - off - as.length := by omega
      simp only [hoff, hsecond, if_true, List.getD_append_right _ _ _ _ hbeyond, hindex,
        List.getD_eq_default _ _ hbeyond]
  · have hnot : ¬ off + as.length ≤ j := by omega
    simp [hoff, hnot]

/-- Reading back what was copied. -/
theorem slice_write (m : Mbuf) (off : ℕ) (bs : List UInt8) {n : ℕ} (hn : n ≤ bs.length) :
    (m.write off bs).slice off n = bs.take n := by
  apply List.ext_getElem
  · simp [slice, hn]
  · intro i hi _
    have hlt : i < bs.length := by
      simp [slice] at hi
      omega
    simp [slice, write, hlt]

/-- A buffer without its links and counts: what its bytes are read from. -/
def core (m : Mbuf) : Mbuf := { m with next := none, refcnt := 0, pktLen := 0, nbSegs := 0 }

end Mbuf

/-- All buffers, with the record of what was done to their counts. -/
structure MbufMem where
  /-- The buffers by number. -/
  mbuf : ℕ → Mbuf
  /-- How many buffers were handed out; no chain is longer. -/
  size : ℕ
  /-- Every `rte_pktmbuf_free_seg` so far, latest first. -/
  frees : List ℕ
  /-- Every return to the pool so far, latest first. -/
  puts : List ℕ

namespace MbufMem

def modify (M : MbufMem) (i : ℕ) (f : Mbuf → Mbuf) : MbufMem :=
  { M with mbuf := Function.update M.mbuf i (f (M.mbuf i)) }

def next (M : MbufMem) (i : ℕ) : Option ℕ := (M.mbuf i).next

def setNext (M : MbufMem) (i : ℕ) (p : Option ℕ) : MbufMem :=
  M.modify i fun m => { m with next := p }

/-- Assign `rte_pktmbuf_data_len`, a 16-bit field. -/
def setDataLen (M : MbufMem) (i : ℕ) (len : ℕ) : MbufMem :=
  M.modify i fun m => { m with dataLen := len % 65536 }

@[simp]
theorem modify_self (M : MbufMem) (i : ℕ) (f : Mbuf → Mbuf) :
    (M.modify i f).mbuf i = f (M.mbuf i) := by simp [modify]

theorem modify_of_ne (M : MbufMem) {i j : ℕ} (f : Mbuf → Mbuf) (h : j ≠ i) :
    (M.modify i f).mbuf j = M.mbuf j := by simp [modify, h]

@[simp]
theorem size_modify (M : MbufMem) (i : ℕ) (f : Mbuf → Mbuf) : (M.modify i f).size = M.size := rfl

@[simp]
theorem frees_modify (M : MbufMem) (i : ℕ) (f : Mbuf → Mbuf) :
    (M.modify i f).frees = M.frees := rfl

/-- Setting a link changes the link function at one point. -/
theorem next_setNext (M : MbufMem) (i : ℕ) (p : Option ℕ) :
    (M.setNext i p).next = Function.update M.next i p := by
  funext j
  by_cases h : j = i
  · subst h
    simp [next, setNext]
  · simp [next, setNext, modify, h]

/-- Distinct buffers that were handed out are no more than were handed out. -/
theorem length_le_size {M : MbufMem} {ids : List ℕ} (hnodup : ids.Nodup)
    (hrange : ∀ i ∈ ids, i < M.size) : ids.length ≤ M.size := by
  have hsub : ids ⊆ List.range M.size := fun i hi => List.mem_range.mpr (hrange i hi)
  simpa using (List.subperm_of_subset hnodup hsub).length_le

/-- A change that keeps the link keeps the link function. -/
theorem next_modify (M : MbufMem) (i : ℕ) {f : Mbuf → Mbuf}
    (hf : (f (M.mbuf i)).next = (M.mbuf i).next) : (M.modify i f).next = M.next := by
  funext j
  by_cases h : j = i
  · subst h
    simpa [next] using hf
  · simp [next, modify, h]

/-! ## Reference counts -/

/-- `rte_mbuf_refcnt_update` of one buffer. -/
def rteMbufRefcntUpdate (M : MbufMem) (i : ℕ) (v : ℤ) : MbufMem :=
  M.modify i fun m => { m with refcnt := m.refcnt + v }

/-- `rte_pktmbuf_refcnt_update`: every segment from `i` along `next`. -/
def rtePktmbufRefcntUpdate (M : MbufMem) (i : ℕ) (v : ℤ) : MbufMem :=
  sweep next (fun M j => M.rteMbufRefcntUpdate j v) M.size M (some i)

/-- `rte_pktmbuf_free_seg`: drop one reference; the last one unlinks the
segment and puts it back into its pool. -/
def rtePktmbufFreeSeg (M : MbufMem) (i : ℕ) : MbufMem :=
  let dropped := { M.rteMbufRefcntUpdate i (-1) with frees := i :: M.frees }
  if (dropped.mbuf i).refcnt = 0 then
    { dropped.setNext i none with puts := i :: M.puts }
  else dropped

/-- `rte_pktmbuf_free`: every segment of the chain. -/
def rtePktmbufFree (M : MbufMem) (p : Option ℕ) : MbufMem :=
  sweep next rtePktmbufFreeSeg M.size M p

theorem next_rteMbufRefcntUpdate (M : MbufMem) (i : ℕ) (v : ℤ) :
    (M.rteMbufRefcntUpdate i v).next = M.next := M.next_modify i rfl

@[simp]
theorem size_rteMbufRefcntUpdate (M : MbufMem) (i : ℕ) (v : ℤ) :
    (M.rteMbufRefcntUpdate i v).size = M.size := rfl

@[simp]
theorem size_rtePktmbufFreeSeg (M : MbufMem) (i : ℕ) :
    (M.rtePktmbufFreeSeg i).size = M.size := by
  unfold rtePktmbufFreeSeg
  dsimp only
  split <;> rfl

@[simp]
theorem frees_rtePktmbufFreeSeg (M : MbufMem) (i : ℕ) :
    (M.rtePktmbufFreeSeg i).frees = i :: M.frees := by
  unfold rtePktmbufFreeSeg
  dsimp only
  split <;> rfl

/-- Freeing a segment leaves every other buffer as it was. -/
theorem mbuf_rtePktmbufFreeSeg_of_ne (M : MbufMem) {i j : ℕ} (h : j ≠ i) :
    (M.rtePktmbufFreeSeg i).mbuf j = M.mbuf j := by
  unfold rtePktmbufFreeSeg
  dsimp only
  split <;> simp [setNext, rteMbufRefcntUpdate, modify, h]

/-- Freeing a segment drops exactly one reference. -/
theorem refcnt_rtePktmbufFreeSeg (M : MbufMem) (i : ℕ) :
    ((M.rtePktmbufFreeSeg i).mbuf i).refcnt = (M.mbuf i).refcnt - 1 := by
  unfold rtePktmbufFreeSeg
  dsimp only
  split <;> simp [setNext, rteMbufRefcntUpdate, modify, Int.sub_eq_add_neg]

theorem next_rtePktmbufFreeSeg_of_ne (M : MbufMem) (i j : ℕ) (h : j ≠ i) :
    (M.rtePktmbufFreeSeg i).next j = M.next j := by
  simp [next, M.mbuf_rtePktmbufFreeSeg_of_ne h]

/-- A free of a well-linked chain frees its segments in order. -/
theorem rtePktmbufFree_eq_foldl (M : MbufMem) {p : Option ℕ} {ids : List ℕ}
    (hlinked : Linked M.next p ids) (hsize : ids.length ≤ M.size) :
    M.rtePktmbufFree p = ids.foldl rtePktmbufFreeSeg M :=
  sweep_eq_foldl next_rtePktmbufFreeSeg_of_ne hlinked hsize

def refcnt (M : MbufMem) (i : ℕ) : ℤ := (M.mbuf i).refcnt

theorem refcnt_modify (M : MbufMem) (i : ℕ) {f : Mbuf → Mbuf}
    (hf : ∀ m, (f m).refcnt = m.refcnt) (j : ℕ) : (M.modify i f).refcnt j = M.refcnt j := by
  by_cases h : j = i
  · subst h
    rw [refcnt, modify_self, hf, refcnt]
  · rw [refcnt, M.modify_of_ne f h, refcnt]

def withRefcnt (M : MbufMem) (r : ℕ → ℤ) : MbufMem :=
  { M with mbuf := fun i => { M.mbuf i with refcnt := r i } }

@[simp]
theorem next_withRefcnt (M : MbufMem) (r : ℕ → ℤ) : (M.withRefcnt r).next = M.next := rfl

@[simp]
theorem refcnt_withRefcnt (M : MbufMem) (r : ℕ → ℤ) : (M.withRefcnt r).refcnt = r := rfl

@[simp]
theorem withRefcnt_withRefcnt (M : MbufMem) (r r' : ℕ → ℤ) :
    (M.withRefcnt r).withRefcnt r' = M.withRefcnt r' := rfl

theorem rteMbufRefcntUpdate_eq (M : MbufMem) (i : ℕ) (v : ℤ) :
    M.rteMbufRefcntUpdate i v = M.withRefcnt fun j => M.refcnt j + if j = i then v else 0 := by
  unfold rteMbufRefcntUpdate modify withRefcnt refcnt
  congr 1
  funext j
  by_cases h : j = i
  · subst h
    simp
  · simp [h]

theorem foldl_rteMbufRefcntUpdate (M : MbufMem) (ids : List ℕ) (v : ℤ) :
    ids.foldl (fun M j => M.rteMbufRefcntUpdate j v) M =
      M.withRefcnt fun j => M.refcnt j + ids.count j * v := by
  induction ids generalizing M with
  | nil => simp [withRefcnt, refcnt]
  | cons i ids ih =>
      rw [List.foldl_cons, ih, rteMbufRefcntUpdate_eq, withRefcnt_withRefcnt]
      congr 1
      funext j
      rw [refcnt_withRefcnt, List.count_cons]
      by_cases h : j = i
      · subst h
        simp only [if_true, beq_self_eq_true]
        push_cast
        ring
      · have hne : ¬ i = j := fun heq => h heq.symm
        simp [h, hne]

/-- A count update along a well-linked chain reaches exactly its segments. -/
theorem rtePktmbufRefcntUpdate_eq (M : MbufMem) {i : ℕ} {ids : List ℕ} (v : ℤ)
    (hlinked : Linked M.next (some i) ids) (hsize : ids.length ≤ M.size) :
    M.rtePktmbufRefcntUpdate i v = M.withRefcnt fun j => M.refcnt j + ids.count j * v := by
  rw [← foldl_rteMbufRefcntUpdate]
  apply sweep_eq_foldl _ hlinked hsize
  intro M i j _
  rw [next_rteMbufRefcntUpdate]

/-- Whatever the links are, a count update changes nothing but counts. -/
theorem rtePktmbufRefcntUpdate_counts (M : MbufMem) (i : ℕ) (v : ℤ) :
    ∃ r, M.rtePktmbufRefcntUpdate i v = M.withRefcnt r := by
  suffices hsweep : ∀ (fuel : ℕ) (N : MbufMem) (p : Option ℕ), (∃ r, N = M.withRefcnt r) →
      ∃ r, sweep next (fun M j => M.rteMbufRefcntUpdate j v) fuel N p = M.withRefcnt r from
    hsweep M.size M (some i) ⟨M.refcnt, rfl⟩
  intro fuel
  induction fuel with
  | zero => exact fun N p hN => hN
  | succ fuel ih =>
      intro N p hN
      cases p with
      | none => exact hN
      | some j =>
          obtain ⟨r, rfl⟩ := hN
          apply ih
          exact ⟨_, rteMbufRefcntUpdate_eq _ j v⟩

/-! ### The contents of buffers

Links and counts change all along the send path; the contents do not. -/

def cores (M : MbufMem) : ℕ → Mbuf := fun i => (M.mbuf i).core

theorem dataLen_congr {M M' : MbufMem} (h : M'.cores = M.cores) (i : ℕ) :
    (M'.mbuf i).dataLen = (M.mbuf i).dataLen := by
  have hcore := congrArg Mbuf.dataLen (congrFun h i)
  exact hcore

theorem data_congr {M M' : MbufMem} (h : M'.cores = M.cores) (i : ℕ) :
    (M'.mbuf i).data = (M.mbuf i).data := by
  have hcore := congrArg Mbuf.data (congrFun h i)
  exact hcore

theorem cores_modify (M : MbufMem) (i : ℕ) {f : Mbuf → Mbuf}
    (hf : (f (M.mbuf i)).core = (M.mbuf i).core) : (M.modify i f).cores = M.cores := by
  funext j
  by_cases h : j = i
  · subst h
    simpa [cores] using hf
  · simp [cores, M.modify_of_ne f h]

@[simp]
theorem cores_setNext (M : MbufMem) (i : ℕ) (p : Option ℕ) :
    (M.setNext i p).cores = M.cores := M.cores_modify i rfl

@[simp]
theorem cores_withRefcnt (M : MbufMem) (r : ℕ → ℤ) : (M.withRefcnt r).cores = M.cores := rfl

@[simp]
theorem cores_rteMbufRefcntUpdate (M : MbufMem) (i : ℕ) (v : ℤ) :
    (M.rteMbufRefcntUpdate i v).cores = M.cores := M.cores_modify i rfl

@[simp]
theorem cores_rtePktmbufFreeSeg (M : MbufMem) (i : ℕ) :
    (M.rtePktmbufFreeSeg i).cores = M.cores := by
  have hdrop : (M.rteMbufRefcntUpdate i (-1)).cores = M.cores := by simp
  unfold rtePktmbufFreeSeg
  dsimp only
  split
  · funext j
    have hunlink := congrFun (cores_setNext (M.rteMbufRefcntUpdate i (-1)) i none) j
    exact hunlink.trans (congrFun hdrop j)
  · exact hdrop

theorem cores_foldl_freeSeg (M : MbufMem) (ids : List ℕ) :
    (ids.foldl rtePktmbufFreeSeg M).cores = M.cores := by
  induction ids generalizing M with
  | nil => rfl
  | cons i ids ih => rw [List.foldl_cons, ih, cores_rtePktmbufFreeSeg]

/-! ### Freeing a list of segments -/

theorem refcnt_freeSeg (M : MbufMem) (i j : ℕ) :
    (M.rtePktmbufFreeSeg i).refcnt j = M.refcnt j - if j = i then 1 else 0 := by
  by_cases h : j = i
  · subst h
    simpa [refcnt] using M.refcnt_rtePktmbufFreeSeg j
  · simp [refcnt, M.mbuf_rtePktmbufFreeSeg_of_ne h, h]

theorem next_freeSeg_of_pos (M : MbufMem) {i j : ℕ}
    (hpos : 1 ≤ (M.rtePktmbufFreeSeg i).refcnt j) :
    (M.rtePktmbufFreeSeg i).next j = M.next j := by
  by_cases h : j = i
  · subst h
    have hcount := hpos
    rw [refcnt_freeSeg, if_pos rfl] at hcount
    have hne : ¬ ((M.rteMbufRefcntUpdate j (-1)).mbuf j).refcnt = 0 := by
      simp only [rteMbufRefcntUpdate, modify_self]
      simp only [refcnt] at hcount
      omega
    have hdrop : (M.rtePktmbufFreeSeg j).next j = (M.rteMbufRefcntUpdate j (-1)).next j := by
      simp [rtePktmbufFreeSeg, hne, next]
    rw [hdrop, next_rteMbufRefcntUpdate]
  · exact M.next_rtePktmbufFreeSeg_of_ne i j h

theorem puts_freeSeg (M : MbufMem) (i : ℕ) :
    (M.rtePktmbufFreeSeg i).puts = if M.refcnt i - 1 = 0 then i :: M.puts else M.puts := by
  by_cases hlast : (M.mbuf i).refcnt + -1 = 0
  · simp [rtePktmbufFreeSeg, rteMbufRefcntUpdate, refcnt, Int.sub_eq_add_neg, hlast]
  · simp [rtePktmbufFreeSeg, rteMbufRefcntUpdate, refcnt, Int.sub_eq_add_neg, hlast, modify]

/-- Buffer `i` went back to the pool once if its count is used up, else never. -/
def PutsOk (M : MbufMem) (i : ℕ) : Prop := M.puts.count i = if M.refcnt i ≤ 0 then 1 else 0

theorem PutsOk.freeSeg {M : MbufMem} {j : ℕ} (hputs : M.PutsOk j) (i : ℕ) :
    (M.rtePktmbufFreeSeg i).PutsOk j := by
  unfold PutsOk at hputs ⊢
  rw [puts_freeSeg, refcnt_freeSeg]
  by_cases h : j = i
  · subst h
    by_cases hlast : M.refcnt j - 1 = 0
    · have hbefore : ¬ M.refcnt j ≤ 0 := by omega
      simp [hlast, hputs, hbefore]
    · simp only [hlast, if_false, if_true, hputs]
      congr 1
      apply propext
      omega
  · have hcount : (if M.refcnt i - 1 = 0 then i :: M.puts else M.puts).count j =
        M.puts.count j := by
      have hne : ¬ i = j := fun heq => h heq.symm
      split <;> simp [hne]
    rw [hcount, hputs]
    simp [h]

@[simp]
theorem size_foldl_freeSeg (M : MbufMem) (ids : List ℕ) :
    (ids.foldl rtePktmbufFreeSeg M).size = M.size := by
  induction ids generalizing M with
  | nil => rfl
  | cons i ids ih => simp [ih]

theorem frees_foldl_freeSeg (M : MbufMem) (ids : List ℕ) :
    (ids.foldl rtePktmbufFreeSeg M).frees = ids.reverse ++ M.frees := by
  induction ids generalizing M with
  | nil => rfl
  | cons i ids ih => simp [ih]

theorem refcnt_foldl_freeSeg (M : MbufMem) (ids : List ℕ) (j : ℕ) :
    (ids.foldl rtePktmbufFreeSeg M).refcnt j = M.refcnt j - ids.count j := by
  induction ids generalizing M with
  | nil => simp
  | cons i ids ih =>
      rw [List.foldl_cons, ih, refcnt_freeSeg, List.count_cons]
      by_cases h : j = i
      · subst h
        simp only [if_true, beq_self_eq_true]
        omega
      · have hne : ¬ i = j := fun heq => h heq.symm
        simp [h, hne]

/-- A segment that is still referenced after the frees keeps its link. -/
theorem next_foldl_freeSeg_of_pos (M : MbufMem) {ids : List ℕ} {j : ℕ}
    (hpos : 1 ≤ M.refcnt j - ids.count j) :
    (ids.foldl rtePktmbufFreeSeg M).next j = M.next j := by
  induction ids generalizing M with
  | nil => rfl
  | cons i ids ih =>
      have hafter : 1 ≤ (M.rtePktmbufFreeSeg i).refcnt j - ids.count j := by
        rw [← refcnt_foldl_freeSeg, ← List.foldl_cons, refcnt_foldl_freeSeg]
        exact hpos
      rw [List.foldl_cons, ih _ hafter]
      apply next_freeSeg_of_pos
      omega

theorem PutsOk.foldl_freeSeg {M : MbufMem} {j : ℕ} (hputs : M.PutsOk j) (ids : List ℕ) :
    (ids.foldl rtePktmbufFreeSeg M).PutsOk j := by
  induction ids generalizing M with
  | nil => exact hputs
  | cons i ids ih => exact ih (hputs.freeSeg i)

theorem not_mem_puts_foldl_freeSeg (M : MbufMem) {ids : List ℕ} {j : ℕ} (h : j ∉ ids)
    (hputs : j ∉ M.puts) : j ∉ (ids.foldl rtePktmbufFreeSeg M).puts := by
  induction ids generalizing M with
  | nil => exact hputs
  | cons i ids ih =>
      simp only [List.mem_cons, not_or] at h
      apply ih _ h.2
      rw [puts_freeSeg]
      split
      · simp [h.1, hputs]
      · exact hputs

/-- Segments that are not listed are left alone. -/
theorem mbuf_foldl_freeSeg_of_not_mem (M : MbufMem) {ids : List ℕ} {j : ℕ} (h : j ∉ ids) :
    (ids.foldl rtePktmbufFreeSeg M).mbuf j = M.mbuf j := by
  induction ids generalizing M with
  | nil => rfl
  | cons i ids ih =>
      simp only [List.mem_cons, not_or] at h
      rw [List.foldl_cons, ih _ h.2, M.mbuf_rtePktmbufFreeSeg_of_ne h.1]

/-! ## Bytes of a chain -/

/-- The bytes of a packet: the data of every segment along `next`. -/
def chainBytes (M : MbufMem) : ℕ → Option ℕ → List UInt8
  | 0, _ => []
  | _ + 1, none => []
  | fuel + 1, some i => (M.mbuf i).data ++ chainBytes M fuel (M.next i)

theorem chainBytes_eq_flatMap (M : MbufMem) {p : Option ℕ} {ids : List ℕ} {fuel : ℕ}
    (hlinked : Linked M.next p ids) (hfuel : ids.length ≤ fuel) :
    M.chainBytes fuel p = ids.flatMap fun i => (M.mbuf i).data := by
  induction ids generalizing p fuel with
  | nil =>
      rw [Linked.nil_iff] at hlinked
      subst hlinked
      cases fuel <;> rfl
  | cons i ids ih =>
      obtain ⟨rfl, htail⟩ := hlinked
      cases fuel with
      | zero => simp at hfuel
      | succ fuel =>
          have hrest := ih htail (by simpa using hfuel)
          simp [chainBytes, hrest]

/-- A chain disjoint from the freed segments stays linked. -/
theorem linked_foldl_freeSeg (M : MbufMem) {ids : List ℕ} {p : Option ℕ} {xs : List ℕ}
    (hlinked : Linked M.next p xs) (hdisjoint : ∀ x ∈ xs, x ∉ ids) :
    Linked (ids.foldl rtePktmbufFreeSeg M).next p xs :=
  hlinked.congr fun x hx => by simp [next, M.mbuf_foldl_freeSeg_of_not_mem (hdisjoint x hx)]

end MbufMem

end IpAugenblick
