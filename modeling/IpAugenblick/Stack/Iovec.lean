/-
# Received data in an iovec

A receive call hands out packet buffers, not bytes: `skb_copy_datagram_iovec` moves
the start of the buffer behind what is not wanted and `memcpy_toiovec` links the
buffer to the chain of the iovec.  Nothing moves the end.  The chain is the data
that was asked for as long as every call takes an skb of its own to the end of its
frame, and as long as the number of segments fits its 8-bit field.
-/

import IpAugenblick.Client.Chains
import IpAugenblick.Stack.Datagram

namespace IpAugenblick

open Lib

structure Iovec where
  head : Option ℕ
  tail : Option ℕ
  len : ℕ

/-- A frame as the driver delivers it and the stack has looked at it: `pulled` bytes
of headers are behind `skb->data`, and `skb->len` is trimmed to the IP length. -/
structure ReceivedFrame where
  /-- `data_off` of the buffer as the port fills it. -/
  headroom : ℕ
  frame : List UInt8
  pulled : ℕ
  len : ℕ
  fits : pulled + len ≤ frame.length
  short : frame.length < 65536

namespace ReceivedFrame

variable (f : ReceivedFrame)

/-- The bytes that the skb stands for. -/
def payload : List UInt8 := (f.frame.drop f.pulled).take f.len

/-- The buffer that the port filled. -/
def mbuf : Mbuf where
  dataOff := f.headroom
  dataLen := f.frame.length
  pktLen := f.frame.length
  nbSegs := 1
  next := none
  refcnt := 1
  buf := fun j => f.frame.getD (j - f.headroom) 0

/-- The linear skb of the buffer `k`. -/
def skb (k : ℕ) : RxSkb where
  headerMbuf := k
  data := f.headroom + f.pulled
  len := f.len

end ReceivedFrame

def Mbuf.startChain (m : Mbuf) : Mbuf := { m with pktLen := m.dataLen, nbSegs := 1 }

/-- The counters of the head when a segment of `len` bytes is linked. -/
def Mbuf.countSegment (m : Mbuf) (len : ℕ) : Mbuf :=
  { m with pktLen := (m.pktLen + len) % 4294967296, nbSegs := (m.nbSegs + 1) % 256 }

/-- `memcpy_toiovec`; `none` is the return value -1. -/
def Iovec.memcpyToiovec (iov : Iovec) (M : MbufMem) (mbuf offset len : ℕ) :
    Option (MbufMem × Iovec) :=
  match (M.mbuf mbuf).rtePktmbufAdj (offset % 65536) with
  | none => none
  | some m =>
      let M := (M.modify mbuf fun _ => m).rteMbufRefcntUpdate mbuf 1
      match iov.head, iov.tail with
      | some head, some tail =>
          if tail = mbuf then some (M, { iov with len := iov.len + len })
          else
            let M := M.setNext tail (some mbuf)
            let M := M.modify head fun h => h.countSegment (M.mbuf mbuf).dataLen
            some (M, { iov with tail := some mbuf, len := iov.len + len })
      | _, _ =>
          -- The tail is set exactly when the head is.
          some (M.modify mbuf Mbuf.startChain,
            { head := some mbuf, tail := some mbuf, len := iov.len + len })

/-- Some received skbs and the iovec that the calls fill. -/
structure CopyState where
  mem : MbufMem
  skbs : ℕ → RxSkb
  iov : Iovec
  /-- The payload bytes that the calls so far were asked for. -/
  asked : List UInt8

/-- One call of `skb_copy_datagram_iovec`. -/
structure CopyCall where
  skb : ℕ
  offset : ℕ
  len : ℕ
  deriving DecidableEq, Repr

/-- What a call does: `exit(1)`, -EFAULT or 0. -/
inductive CopyOutcome
  | exit
  | fault (s : CopyState)
  | done (s : CopyState)

namespace CopyState

/-- `skb->data` less `rte_pktmbuf_mtod`, as the 16-bit argument of `rte_pktmbuf_adj`. -/
def distance (s : CopyState) (k : ℕ) : ℕ :=
  (((s.skbs k).data - (s.mem.mbuf (s.skbs k).headerMbuf).dataOff : ℤ) % 65536).toNat

/-- `skb_copy_datagram_iovec` of a linear skb. -/
def skbCopyDatagramIovec (s : CopyState) (call : CopyCall) : CopyOutcome :=
  let skb := s.skbs call.skb
  match (s.mem.mbuf skb.headerMbuf).rtePktmbufAdj (s.distance call.skb) with
  | none => .exit
  | some m =>
      let s := { s with mem := s.mem.modify skb.headerMbuf fun _ => m }
      if call.offset < skb.len then
        let copy := min (skb.len - call.offset) call.len
        match s.iov.memcpyToiovec s.mem skb.headerMbuf call.offset copy with
        | none => .fault s
        | some (mem, iov) =>
            let skbs := Function.update s.skbs call.skb { skb with data := skb.data + copy }
            let s := { s with mem, iov, skbs }
            -- A linear skb has no fragments to take the rest from.
            if call.len - copy = 0 then .done s else .fault s
      else if call.len = 0 then .done s
      else .fault s

end CopyState

/-- Calls on the skbs of some frames that stay within `skb->len` and return 0.  The
skb `k` has the buffer `k`. -/
def copyMachine (frames : ℕ → ReceivedFrame) : Machine CopyState CopyCall where
  init :=
    { mem := { mbuf := fun k => (frames k).mbuf, size := 0, frees := [], puts := [] }
      skbs := fun k => (frames k).skb k
      iov := { head := none, tail := none, len := 0 }
      asked := [] }
  step s call :=
    if call.offset + call.len ≤ (s.skbs call.skb).len then
      match s.skbCopyDatagramIovec call with
      | .done t => some { t with
          asked := s.asked ++ ((frames call.skb).payload.drop call.offset).take call.len }
      | _ => none
    else none

/-- The chain of the iovec is the data that was asked for, and its counters say so. -/
def Represents (s : CopyState) : Prop :=
  ∃ ids, Linked s.mem.next s.iov.head ids ∧ bytesOf s.mem ids = s.asked ∧
    s.iov.len = s.asked.length ∧
    ∀ head, s.iov.head = some head →
      (s.mem.mbuf head).pktLen = s.asked.length ∧ (s.mem.mbuf head).nbSegs = ids.length

/-- The buffer `k` is in the chain of the iovec. -/
def CopyState.inChain (s : CopyState) (k : ℕ) : Prop :=
  s.iov.tail = some k ∨ s.mem.next k ≠ none

instance decidableInChain (s : CopyState) (k : ℕ) : Decidable (s.inChain k) :=
  inferInstanceAs (Decidable (s.iov.tail = some k ∨ s.mem.next k ≠ none))

/-- There is room in the segment count of the chain. -/
def CopyState.roomForSegment (s : CopyState) : Prop :=
  match s.iov.head with
  | none => True
  | some head => (s.mem.mbuf head).nbSegs < 255

/-- A call that gets what it asks for.  A buffer that is not in the chain is read to
the end of its frame; one that is in the chain is left alone. -/
def callOk (s : CopyState) (call : CopyCall) : Prop :=
  if s.inChain call.skb then
    s.distance call.skb = 0 ∧ (call.offset < (s.skbs call.skb).len →
      s.iov.tail = some call.skb ∧ call.offset = 0 ∧ call.len = 0)
  else
    call.offset < (s.skbs call.skb).len →
      call.offset + call.len = (s.mem.mbuf call.skb).dataLen - s.distance call.skb ∧
        s.roomForSegment

instance decidableRoomForSegment (s : CopyState) : Decidable s.roomForSegment := by
  unfold CopyState.roomForSegment
  exact match s.iov.head with
    | none => isTrue trivial
    | some _ => inferInstance

instance decidableCallOk (s : CopyState) (call : CopyCall) : Decidable (callOk s call) := by
  unfold callOk
  infer_instance

/-! ## What a call does -/

/-- The buffer after `rte_pktmbuf_adj` by `n`. -/
def Mbuf.adjusted (m : Mbuf) (n : ℕ) : Mbuf :=
  { m with dataOff := m.dataOff + n, dataLen := m.dataLen - n, pktLen := m.pktLen - n }

theorem Mbuf.rtePktmbufAdj_eq_some {m m' : Mbuf} {n : ℕ} :
    m.rtePktmbufAdj n = some m' ↔ n ≤ m.dataLen ∧ m' = m.adjusted n := by
  unfold Mbuf.rtePktmbufAdj Mbuf.adjusted
  split
  · simp only [reduceCtorEq, false_iff, not_and]
    omega
  · simp only [Option.some.injEq]
    constructor
    · intro h
      exact ⟨by omega, h.symm⟩
    · intro h
      exact h.2.symm

@[simp]
theorem Mbuf.adjusted_zero (m : Mbuf) : m.adjusted 0 = m := rfl

theorem Mbuf.adjusted_adjusted (m : Mbuf) (a b : ℕ) :
    (m.adjusted a).adjusted b = m.adjusted (a + b) := by
  simp only [Mbuf.adjusted, Nat.add_assoc, Nat.sub_sub]

/-- The buffers after both adjustments of a call that links the buffer `k`. -/
def CopyState.linkedMem (s : CopyState) (k offset : ℕ) : MbufMem :=
  s.mem.modify k fun m => { m.adjusted (s.distance k + offset) with refcnt := m.refcnt + 1 }

section Effect

variable {s t : CopyState} {call : CopyCall}

/-- **What a call can do**, as far as the buffers and the iovec are concerned: no data is
left and the start moves to `skb->data`, or the buffer is linked to an empty iovec, is
the tail already, or is linked behind the tail. -/
theorem skbCopyDatagramIovec_cases (h : s.skbCopyDatagramIovec call = .done t)
    (hmbuf : (s.skbs call.skb).headerMbuf = call.skb)
    (hrange : call.offset + call.len ≤ (s.skbs call.skb).len)
    (hshort : (s.skbs call.skb).len < 65536) :
    t.asked = s.asked ∧ s.distance call.skb ≤ (s.mem.mbuf call.skb).dataLen ∧
      (¬ call.offset < (s.skbs call.skb).len ∧ call.len = 0 ∧ t.skbs = s.skbs ∧
          t.iov = s.iov ∧
          t.mem = s.mem.modify call.skb (·.adjusted (s.distance call.skb)) ∨
        call.offset < (s.skbs call.skb).len ∧
          s.distance call.skb + call.offset ≤ (s.mem.mbuf call.skb).dataLen ∧
          t.skbs = Function.update s.skbs call.skb
            { headerMbuf := call.skb, data := (s.skbs call.skb).data + call.len
              len := (s.skbs call.skb).len } ∧
          ((s.iov.head = none ∨ s.iov.tail = none) ∧
              t.iov = { head := some call.skb, tail := some call.skb
                        len := s.iov.len + call.len } ∧
              t.mem = (s.linkedMem call.skb call.offset).modify call.skb Mbuf.startChain ∨
            s.iov.tail = some call.skb ∧
              t.iov = { head := s.iov.head, tail := some call.skb
                        len := s.iov.len + call.len } ∧
              t.mem = s.linkedMem call.skb call.offset ∨
            ∃ head tail, s.iov.head = some head ∧ s.iov.tail = some tail ∧ tail ≠ call.skb ∧
              t.iov = { head := some head, tail := some call.skb
                        len := s.iov.len + call.len } ∧
              t.mem = ((s.linkedMem call.skb call.offset).setNext tail (some call.skb)).modify
                head (·.countSegment (((s.linkedMem call.skb call.offset).setNext tail
                  (some call.skb)).mbuf call.skb).dataLen))) := by
  unfold CopyState.skbCopyDatagramIovec at h
  dsimp only at h
  rw [hmbuf] at h
  split at h
  next => cases h
  next m hadj =>
      obtain ⟨hdistance, rfl⟩ := Mbuf.rtePktmbufAdj_eq_some.mp hadj
      split at h
      next hoffset =>
          have hcopy : min ((s.skbs call.skb).len - call.offset) call.len = call.len := by omega
          have hsmall : call.offset % 65536 = call.offset := Nat.mod_eq_of_lt (by omega)
          rw [hcopy] at h
          unfold Iovec.memcpyToiovec at h
          rw [MbufMem.modify_self, hsmall] at h
          cases hsecond : ((s.mem.mbuf call.skb).adjusted (s.distance call.skb)).rtePktmbufAdj
              call.offset with
          | none =>
              rw [hsecond] at h
              cases h
          | some m =>
              rw [hsecond] at h
              obtain ⟨hfits, rfl⟩ := Mbuf.rtePktmbufAdj_eq_some.mp hsecond
              have hroom : s.distance call.skb + call.offset ≤ (s.mem.mbuf call.skb).dataLen := by
                have hleft : call.offset ≤ (s.mem.mbuf call.skb).dataLen - s.distance call.skb :=
                  hfits
                omega
              have hmem : (((s.mem.modify call.skb fun _ => (s.mem.mbuf call.skb).adjusted
                  (s.distance call.skb)).modify call.skb fun _ => ((s.mem.mbuf call.skb).adjusted
                    (s.distance call.skb)).adjusted call.offset).rteMbufRefcntUpdate call.skb 1) =
                  s.linkedMem call.skb call.offset := by
                rw [MbufMem.rteMbufRefcntUpdate, MbufMem.modify_modify, MbufMem.modify_modify,
                  Mbuf.adjusted_adjusted]
                rfl
              dsimp only at h
              simp only [hmem, Nat.sub_self, if_true] at h
              cases hhead : s.iov.head with
              | none =>
                  rw [hhead] at h
                  obtain rfl := CopyOutcome.done.inj h
                  exact ⟨rfl, hdistance, .inr ⟨hoffset, hroom, rfl, .inl ⟨.inl rfl, rfl, rfl⟩⟩⟩
              | some head =>
                  cases htail : s.iov.tail with
                  | none =>
                      rw [hhead, htail] at h
                      obtain rfl := CopyOutcome.done.inj h
                      exact ⟨rfl, hdistance,
                        .inr ⟨hoffset, hroom, rfl, .inl ⟨.inr rfl, rfl, rfl⟩⟩⟩
                  | some tail =>
                      rw [hhead, htail] at h
                      by_cases hsame : tail = call.skb
                      · simp only [if_pos hsame] at h
                        obtain rfl := CopyOutcome.done.inj h
                        exact ⟨rfl, hdistance, .inr ⟨hoffset, hroom, rfl,
                          .inr (.inl ⟨by rw [hsame], by rw [hsame], rfl⟩)⟩⟩
                      · simp only [if_neg hsame] at h
                        obtain rfl := CopyOutcome.done.inj h
                        exact ⟨rfl, hdistance, .inr ⟨hoffset, hroom, rfl,
                          .inr (.inr ⟨head, tail, rfl, rfl, hsame, rfl, rfl⟩)⟩⟩
      next hoffset =>
          split at h
          next hzero =>
              obtain rfl := CopyOutcome.done.inj h
              exact ⟨rfl, hdistance, .inl ⟨hoffset, hzero, rfl, rfl, rfl⟩⟩
          next => cases h

end Effect

/-! ## The invariant of a run -/

variable {frames : ℕ → ReceivedFrame}

/-- What holds of the chain `ids` while every call gets what it asks for. -/
structure CopyInv (frames : ℕ → ReceivedFrame) (s : CopyState) (ids : List ℕ) : Prop where
  linked : Linked s.mem.next s.iov.head ids
  tail : s.iov.tail = ids.getLast?
  bytes : bytesOf s.mem ids = s.asked
  len : s.iov.len = s.asked.length
  counted : ∀ head, s.iov.head = some head →
    (s.mem.mbuf head).pktLen = s.asked.length ∧ (s.mem.mbuf head).nbSegs = ids.length
  few : ids.length < 256
  short : ∀ k, (s.mem.mbuf k).dataLen < 65536
  /-- A buffer outside the chain is the frame, possibly without some of its headers. -/
  outside : ∀ k, k ∉ ids → s.mem.next k = none ∧
    (s.skbs k).data = (frames k).headroom + (frames k).pulled ∧
    ∃ a ≤ (frames k).pulled, (s.mem.mbuf k).dataOff = (frames k).headroom + a ∧
      (s.mem.mbuf k).dataLen = (frames k).frame.length - a ∧
      (s.mem.mbuf k).buf = (frames k).mbuf.buf
  skb : ∀ k, (s.skbs k).headerMbuf = k ∧ (s.skbs k).len = (frames k).len

theorem CopyInv.init : CopyInv frames (copyMachine frames).init [] where
  linked := rfl
  tail := rfl
  bytes := rfl
  len := rfl
  counted := fun _ h => by cases h
  few := by decide
  short := fun k => (frames k).short
  outside := fun k _ => ⟨rfl, rfl, 0, Nat.zero_le _, rfl, rfl, rfl⟩
  skb := fun _ => ⟨rfl, rfl⟩

namespace CopyInv

variable {s t : CopyState} {ids : List ℕ} {k : ℕ}

theorem represents (h : CopyInv frames s ids) : Represents s :=
  ⟨ids, h.linked, h.bytes, h.len, h.counted⟩

/-- The chain has what was asked for, counted by segment. -/
theorem sum_lens (h : CopyInv frames s ids) : (lensOf s.mem ids).sum = s.asked.length := by
  rw [← length_bytesOf, h.bytes]

theorem asked_lt (h : CopyInv frames s ids) : s.asked.length ≤ 255 * 65535 := by
  have hbound : ∀ ids : List ℕ, (lensOf s.mem ids).sum ≤ ids.length * 65535 := by
    intro ids
    induction ids with
    | nil => simp [lensOf]
    | cons i ids ih =>
        rw [lensOf_cons, List.sum_cons, List.length_cons, Nat.add_mul]
        have hi := h.short i
        omega
  have hfew := h.few
  calc s.asked.length = (lensOf s.mem ids).sum := h.sum_lens.symm
    _ ≤ ids.length * 65535 := hbound ids
    _ ≤ 255 * 65535 := Nat.mul_le_mul_right _ (by omega)

/-- The tail is the segment without a successor. -/
theorem inChain_iff (h : CopyInv frames s ids) : s.inChain k ↔ k ∈ ids := by
  unfold CopyState.inChain
  rw [h.tail]
  constructor
  · rintro (hlast | hnext)
    · exact List.mem_of_getLast? hlast
    · by_contra hk
      exact hnext (h.outside k hk).1
  · intro hk
    obtain ⟨pre, post, rfl⟩ := List.append_of_mem hk
    have hbehind := (Linked.drop_front h.linked).2
    cases post with
    | nil => exact .inl (by simp)
    | cons y post =>
        right
        rw [hbehind.1]
        simp

theorem head_eq_none_iff (h : CopyInv frames s ids) : s.iov.head = none ↔ ids = [] := by
  have hlinked := h.linked
  cases ids with
  | nil => simpa using hlinked
  | cons i ids =>
      rw [hlinked.1]
      simp

/-- Outside the chain, the first adjustment moves the start to the data of the skb. -/
theorem distance_outside (h : CopyInv frames s ids) (hk : k ∉ ids) :
    (s.mem.mbuf k).dataOff + s.distance k = (frames k).headroom + (frames k).pulled ∧
      (s.mem.mbuf k).dataLen - s.distance k = (frames k).frame.length - (frames k).pulled := by
  obtain ⟨-, hdata, a, ha, hoff, hlen, -⟩ := h.outside k hk
  have hfits := (frames k).fits
  have hshort := (frames k).short
  have hdistance : s.distance k = (frames k).pulled - a := by
    unfold CopyState.distance
    rw [(h.skb k).1, hdata, hoff]
    have hsub : (((frames k).headroom + (frames k).pulled : ℕ) -
        ((frames k).headroom + a : ℕ) : ℤ) = ((frames k).pulled - a : ℕ) := by omega
    rw [hsub]
    omega
  omega

theorem roomForSegment_iff (h : CopyInv frames s ids) : s.roomForSegment ↔ ids.length < 255 := by
  unfold CopyState.roomForSegment
  cases hhead : s.iov.head with
  | none => simp [h.head_eq_none_iff.mp hhead]
  | some head => simp [(h.counted head hhead).2]

theorem head_mem (h : CopyInv frames s ids) {head : ℕ} (hhead : s.iov.head = some head) :
    head ∈ ids := by
  have hlinked := h.linked
  rw [hhead] at hlinked
  cases ids with
  | nil => cases hlinked
  | cons i ids => simp [Option.some.inj hlinked.1]

end CopyInv

/-! ## The bytes of one frame -/

/-- The payload bytes that a call asks for. -/
def CopyCall.range (frames : ℕ → ReceivedFrame) (call : CopyCall) : List UInt8 :=
  ((frames call.skb).payload.drop call.offset).take call.len

theorem length_range {call : CopyCall} (h : call.offset + call.len ≤ (frames call.skb).len) :
    (call.range frames).length = call.len := by
  have hfits := (frames call.skb).fits
  simp only [CopyCall.range, ReceivedFrame.payload, List.length_take, List.length_drop]
  omega

/-- The rest of the frame is what the call asks for when the call asks for all of it. -/
theorem drop_frame_eq_range_iff {call : CopyCall}
    (h : call.offset + call.len ≤ (frames call.skb).len) :
    (frames call.skb).frame.drop ((frames call.skb).pulled + call.offset) = call.range frames ↔
      call.offset + call.len = (frames call.skb).frame.length - (frames call.skb).pulled := by
  have hfits := (frames call.skb).fits
  constructor
  · intro heq
    have hlength := congrArg List.length heq
    rw [length_range h, List.length_drop] at hlength
    omega
  · intro hall
    have hpayload : (frames call.skb).payload =
        (frames call.skb).frame.drop (frames call.skb).pulled := by
      apply List.take_of_length_le
      rw [List.length_drop]
      omega
    rw [CopyCall.range, hpayload, List.drop_drop, List.take_of_length_le]
    rw [List.length_drop]
    omega

section Step

variable {s t : CopyState} {call : CopyCall} {ids : List ℕ} {k : ℕ}

theorem next_linkedMem (s : CopyState) (k offset : ℕ) :
    (s.linkedMem k offset).next = s.mem.next := MbufMem.next_modify _ _ rfl

theorem linkedMem_of_ne (s : CopyState) {k i : ℕ} (offset : ℕ) (h : i ≠ k) :
    (s.linkedMem k offset).mbuf i = s.mem.mbuf i := MbufMem.modify_of_ne _ _ h

theorem linkedMem_self (s : CopyState) (k offset : ℕ) :
    (s.linkedMem k offset).mbuf k =
      { (s.mem.mbuf k).adjusted (s.distance k + offset) with
        refcnt := (s.mem.mbuf k).refcnt + 1 } := MbufMem.modify_self _ _ _

/-- A buffer outside the chain is linked with all that its frame holds behind the
offset. -/
theorem CopyInv.data_linkedMem (h : CopyInv frames s ids) (hk : k ∉ ids) (offset : ℕ) :
    ((s.linkedMem k offset).mbuf k).data =
      (frames k).frame.drop ((frames k).pulled + offset) := by
  obtain ⟨hoff, hlen⟩ := h.distance_outside hk
  obtain ⟨-, -, -, -, -, -, hbuf⟩ := h.outside k hk
  rw [linkedMem_self]
  unfold Mbuf.data Mbuf.slice Mbuf.adjusted
  dsimp only
  rw [hbuf]
  apply List.ext_getElem
  · simp only [List.length_map, List.length_range, List.length_drop]
    omega
  · intro i hi hi'
    have hindex : (s.mem.mbuf k).dataOff + (s.distance k + offset) + i - (frames k).headroom =
        (frames k).pulled + offset + i := by omega
    rw [List.length_drop] at hi'
    simp only [List.getElem_map, List.getElem_range, List.getElem_drop, ReceivedFrame.mbuf,
      hindex]
    rw [List.getD_eq_getElem _ _ (by omega)]

theorem copyMachine_step (hstep : (copyMachine frames).step s call = some t) :
    call.offset + call.len ≤ (s.skbs call.skb).len ∧
      ∃ u, s.skbCopyDatagramIovec call = .done u ∧
        t = { u with asked := s.asked ++ call.range frames } := by
  simp only [copyMachine] at hstep
  split at hstep
  next hrange =>
      split at hstep
      next u hu => exact ⟨hrange, u, hu, (Option.some.inj hstep).symm⟩
      next => cases hstep
  next => cases hstep

/-- The buffer `k` was linked behind the chain `ids` with the bytes `rest`. -/
structure Appended (s t : CopyState) (ids : List ℕ) (k : ℕ) (rest : List UInt8) : Prop where
  linked : Linked t.mem.next t.iov.head (ids ++ [k])
  tail : t.iov.tail = some k
  bytes : bytesOf t.mem (ids ++ [k]) = s.asked ++ rest
  counted : ∀ head, t.iov.head = some head →
    (t.mem.mbuf head).pktLen = (s.asked.length + rest.length) % 4294967296 ∧
      (t.mem.mbuf head).nbSegs = (ids.length + 1) % 256
  short : ∀ i, (t.mem.mbuf i).dataLen < 65536
  others : ∀ i, i ∉ ids ++ [k] → t.mem.mbuf i = s.mem.mbuf i

/-- The counters of a head that is linked at the end of the same call are right. -/
theorem CopyInv.appended_empty (h : CopyInv frames s []) (hk : k ∉ ([] : List ℕ)) (offset : ℕ)
    {len : ℕ} (hiov : t.iov = { head := some k, tail := some k, len })
    (hmem : t.mem = (s.linkedMem k offset).modify k Mbuf.startChain) :
    Appended s t [] k ((frames k).frame.drop ((frames k).pulled + offset)) := by
  have hasked : s.asked = [] := h.bytes.symm
  have hnext : t.mem.next k = none := by
    rw [hmem, MbufMem.next_modify _ _ rfl, next_linkedMem]
    exact (h.outside k hk).1
  have hcore : (t.mem.mbuf k).core = ((s.linkedMem k offset).mbuf k).core := by
    rw [hmem, MbufMem.modify_self]
    rfl
  have hdata : (t.mem.mbuf k).data = (frames k).frame.drop ((frames k).pulled + offset) := by
    rw [← h.data_linkedMem hk]
    have hsame := congrArg Mbuf.data hcore
    exact hsame
  have hlen : (t.mem.mbuf k).dataLen =
      ((frames k).frame.drop ((frames k).pulled + offset)).length := by
    rw [← hdata, Mbuf.length_data]
  have hfew : ((frames k).frame.drop ((frames k).pulled + offset)).length < 65536 := by
    have hshort := (frames k).short
    rw [List.length_drop]
    omega
  exact
    { linked := by
        rw [hiov]
        exact ⟨rfl, hnext⟩
      tail := by rw [hiov]
      bytes := by
        rw [hasked, List.nil_append, List.nil_append, ← hdata]
        simp [bytesOf]
      counted := by
        intro head hhead
        rw [hiov] at hhead
        obtain rfl := Option.some.inj hhead
        have hpktLen : (t.mem.mbuf k).pktLen = (t.mem.mbuf k).dataLen := by
          rw [hmem, MbufMem.modify_self]
          rfl
        rw [hpktLen, hlen, hasked, List.length_nil, Nat.zero_add]
        refine ⟨(Nat.mod_eq_of_lt (by omega)).symm, ?_⟩
        rw [hmem, MbufMem.modify_self]
        rfl
      short := by
        intro i
        by_cases hi : i = k
        · rw [hi, hlen]
          exact hfew
        · rw [hmem, MbufMem.modify_of_ne _ _ hi, linkedMem_of_ne _ _ hi]
          exact h.short i
      others := by
        intro i hi
        have hne : i ≠ k := fun heq => hi (by simp [heq])
        rw [hmem, MbufMem.modify_of_ne _ _ hne, linkedMem_of_ne _ _ hne] }

/-- A buffer linked behind the tail. -/
theorem CopyInv.appended_behind (h : CopyInv frames s ids) (hk : k ∉ ids) (offset : ℕ) {len : ℕ}
    {head tail : ℕ} (hhead : s.iov.head = some head) (htail : s.iov.tail = some tail)
    (hiov : t.iov = { head := some head, tail := some k, len })
    (hmem : t.mem = ((s.linkedMem k offset).setNext tail (some k)).modify head
      (·.countSegment (((s.linkedMem k offset).setNext tail (some k)).mbuf k).dataLen)) :
    Appended s t ids k ((frames k).frame.drop ((frames k).pulled + offset)) := by
  obtain ⟨pre, rfl⟩ : ∃ pre, ids = pre ++ [tail] := by
    have hlast := h.tail
    rw [htail] at hlast
    exact ⟨ids.dropLast, (List.dropLast_append_getLast? tail hlast.symm).symm⟩
  have htailNe : k ≠ tail := fun heq => hk (by simp [heq])
  have hheadMem := h.head_mem hhead
  have hheadNe : k ≠ head := fun heq => hk (heq ▸ hheadMem)
  have hnext : t.mem.next = Function.update s.mem.next tail (some k) := by
    rw [hmem, MbufMem.next_modify _ _ rfl, MbufMem.next_setNext, next_linkedMem]
  have hcores : t.mem.cores = (s.linkedMem k offset).cores := by
    rw [hmem, MbufMem.cores_modify _ _ rfl, MbufMem.cores_setNext]
  have hdata : (t.mem.mbuf k).data = (frames k).frame.drop ((frames k).pulled + offset) := by
    rw [← h.data_linkedMem hk]
    exact MbufMem.data_congr hcores k
  have hlen : (((s.linkedMem k offset).setNext tail (some k)).mbuf k).dataLen =
      ((frames k).frame.drop ((frames k).pulled + offset)).length := by
    rw [MbufMem.dataLen_congr (MbufMem.cores_setNext _ _ _), ← h.data_linkedMem hk,
      Mbuf.length_data]
  have hother : ∀ i ∈ pre ++ [tail], (t.mem.mbuf i).data = (s.mem.mbuf i).data := by
    intro i hi
    have hne : i ≠ k := fun heq => hk (heq ▸ hi)
    rw [MbufMem.data_congr hcores i, linkedMem_of_ne _ _ hne]
  exact
    { linked := by
        rw [hiov, hnext, List.append_assoc]
        have hlinked := h.linked
        rw [hhead] at hlinked
        refine hlinked.append ⟨rfl, (h.outside k hk).1⟩ ?_
        simp [htailNe.symm]
      tail := by rw [hiov]
      bytes := by
        rw [bytesOf_append, bytesOf_congr hother, h.bytes, ← hdata]
        simp [bytesOf]
      counted := by
        intro head' hhead'
        rw [hiov] at hhead'
        obtain rfl := Option.some.inj hhead'
        obtain ⟨hpktLen, hnbSegs⟩ := h.counted head hhead
        have hkeep : (((s.linkedMem k offset).setNext tail (some k)).mbuf head).pktLen =
            (s.mem.mbuf head).pktLen ∧
            (((s.linkedMem k offset).setNext tail (some k)).mbuf head).nbSegs =
              (s.mem.mbuf head).nbSegs := by
          by_cases heq : head = tail
          · rw [heq, MbufMem.setNext, MbufMem.modify_self, linkedMem_of_ne _ _ htailNe.symm]
            exact ⟨rfl, rfl⟩
          · rw [setNext_mbuf_of_ne _ _ heq, linkedMem_of_ne _ _ hheadNe.symm]
            exact ⟨rfl, rfl⟩
        rw [hmem, MbufMem.modify_self, Mbuf.countSegment, hlen, hkeep.1, hkeep.2, hpktLen,
          hnbSegs]
        exact ⟨rfl, rfl⟩
      short := by
        intro i
        rw [MbufMem.dataLen_congr hcores]
        by_cases hi : i = k
        · rw [hi, linkedMem_self]
          exact Nat.lt_of_le_of_lt (Nat.sub_le _ _) (h.short k)
        · rw [linkedMem_of_ne _ _ hi]
          exact h.short i
      others := by
        intro i hi
        simp only [List.mem_append, List.mem_singleton, not_or] at hi
        have hheadI : i ≠ head := by
          rintro rfl
          rcases List.mem_append.mp hheadMem with hpre | htl
          · exact hi.1.1 hpre
          · exact hi.1.2 (List.mem_singleton.mp htl)
        rw [hmem, MbufMem.modify_of_ne _ _ hheadI, setNext_mbuf_of_ne _ _ hi.1.2,
          linkedMem_of_ne _ _ hi.2] }

/-- A linked buffer gives what was asked for when its rest is just that and the
segment count does not wrap. -/
theorem Appended.represents_iff {rest range : List UInt8} (h : CopyInv frames s ids)
    (happended : Appended s t ids k rest) (hlen : t.iov.len = s.iov.len + range.length)
    (hasked : t.asked = s.asked ++ range) (hshort : range.length < 65536) :
    Represents t ↔ rest = range ∧ ids.length < 255 := by
  obtain ⟨head, hhead⟩ : ∃ head, t.iov.head = some head := by
    have hlinked := happended.linked
    cases ids with
    | nil => exact ⟨_, hlinked.1⟩
    | cons i ids => exact ⟨_, hlinked.1⟩
  have hfew := h.few
  have hbound := h.asked_lt
  obtain ⟨hpktLen, hnbSegs⟩ := happended.counted head hhead
  constructor
  · rintro ⟨chain, hlinked, hbytes, -, hcounted⟩
    obtain rfl := happended.linked.unique hlinked
    rw [happended.bytes, hasked] at hbytes
    have hsegs := (hcounted head hhead).2
    rw [hnbSegs, List.length_append, List.length_singleton] at hsegs
    exact ⟨List.append_cancel_left hbytes, by omega⟩
  · rintro ⟨rfl, hroom⟩
    refine ⟨ids ++ [k], happended.linked, by rw [happended.bytes, hasked], ?_, ?_⟩
    · rw [hlen, h.len, hasked, List.length_append]
    · intro head' hhead'
      rw [hhead] at hhead'
      obtain rfl := Option.some.inj hhead'
      rw [hpktLen, hnbSegs, hasked, List.length_append, List.length_append, List.length_singleton]
      exact ⟨Nat.mod_eq_of_lt (by omega), Nat.mod_eq_of_lt (by omega)⟩

/-- The invariant after a buffer was linked as asked. -/
theorem CopyInv.append (h : CopyInv frames s ids) {rest range : List UInt8}
    (happended : Appended s t ids k rest) (hlen : t.iov.len = s.iov.len + range.length)
    (hasked : t.asked = s.asked ++ range) (hshort : range.length < 65536)
    (hskbs : ∀ i, (t.skbs i).headerMbuf = i ∧ (t.skbs i).len = (frames i).len)
    (hdata : ∀ i, i ≠ k → (t.skbs i).data = (s.skbs i).data)
    (hrest : rest = range) (hroom : ids.length < 255) : CopyInv frames t (ids ++ [k]) := by
  obtain ⟨chain, hlinked, hbytes, hsum, hcounted⟩ :=
    (happended.represents_iff h hlen hasked hshort).mpr ⟨hrest, hroom⟩
  obtain rfl := happended.linked.unique hlinked
  exact
    { linked := hlinked
      tail := by rw [happended.tail, List.getLast?_concat]
      bytes := hbytes
      len := hsum
      counted := hcounted
      few := by
        rw [List.length_append, List.length_singleton]
        omega
      short := happended.short
      outside := by
        intro i hi
        have hout : i ∉ ids := fun hmem => hi (List.mem_append_left _ hmem)
        have hne : i ≠ k := fun heq => hi (by simp [heq])
        rw [MbufMem.next, happended.others i hi, hdata i hne]
        exact h.outside i hout
      skb := hskbs }

/-- The start of a buffer outside the chain moves to the data of the skb. -/
theorem CopyInv.adjust_outside (h : CopyInv frames s ids) (hk : k ∉ ids)
    (hmem : t.mem = s.mem.modify k (·.adjusted (s.distance k))) (hiov : t.iov = s.iov)
    (hskbs : t.skbs = s.skbs) (hasked : t.asked = s.asked) : CopyInv frames t ids := by
  have hnext : t.mem.next = s.mem.next := by
    rw [hmem]
    exact MbufMem.next_modify _ _ rfl
  have hother : ∀ i, i ≠ k → t.mem.mbuf i = s.mem.mbuf i := by
    intro i hi
    rw [hmem, MbufMem.modify_of_ne _ _ hi]
  have hself : t.mem.mbuf k = (s.mem.mbuf k).adjusted (s.distance k) := by
    rw [hmem, MbufMem.modify_self]
  have hin : ∀ i ∈ ids, t.mem.mbuf i = s.mem.mbuf i := fun i hi =>
    hother i fun heq => hk (heq ▸ hi)
  exact
    { linked := by
        rw [hnext, hiov]
        exact h.linked
      tail := by
        rw [hiov]
        exact h.tail
      bytes := by
        rw [hasked, ← h.bytes]
        exact bytesOf_congr fun i hi => by rw [hin i hi]
      len := by
        rw [hiov, hasked]
        exact h.len
      counted := by
        intro head hhead
        rw [hiov] at hhead
        rw [hin head (h.head_mem hhead), hasked]
        exact h.counted head hhead
      few := h.few
      short := by
        intro i
        by_cases hi : i = k
        · rw [hi, hself]
          exact Nat.lt_of_le_of_lt (Nat.sub_le _ _) (h.short k)
        · rw [hother i hi]
          exact h.short i
      outside := by
        intro i hi
        rw [hnext, hskbs]
        obtain ⟨hend, hdata, a, ha, hoff, hlen, hbuf⟩ := h.outside i hi
        by_cases heq : i = k
        · obtain rfl := heq
          obtain ⟨hoff', hlen'⟩ := h.distance_outside hi
          refine ⟨hend, hdata, (frames i).pulled, Nat.le_refl _, ?_, ?_, ?_⟩
          · rw [hself]
            exact hoff'
          · rw [hself]
            exact hlen'
          · rw [hself]
            exact hbuf
        · rw [hother i heq]
          exact ⟨hend, hdata, a, ha, hoff, hlen, hbuf⟩
      skb := by
        rw [hskbs]
        exact h.skb }

/-- A call that changes only a reference count. -/
theorem CopyInv.counted_again (h : CopyInv frames s ids)
    (hmem : ∀ i, ∃ r, t.mem.mbuf i = { s.mem.mbuf i with refcnt := r })
    (hhead : t.iov.head = s.iov.head) (htail : t.iov.tail = s.iov.tail)
    (hlen : t.iov.len = s.iov.len) (hasked : t.asked = s.asked)
    (hskbs : ∀ i, (t.skbs i).headerMbuf = i ∧ (t.skbs i).len = (frames i).len)
    (hdata : ∀ i, i ∉ ids → (t.skbs i).data = (s.skbs i).data) : CopyInv frames t ids := by
  have hnext : t.mem.next = s.mem.next := by
    funext i
    obtain ⟨r, hr⟩ := hmem i
    rw [MbufMem.next, hr, MbufMem.next]
  exact
    { linked := by
        rw [hnext, hhead]
        exact h.linked
      tail := by
        rw [htail]
        exact h.tail
      bytes := by
        rw [hasked, ← h.bytes]
        apply bytesOf_congr
        intro i _
        obtain ⟨r, hr⟩ := hmem i
        rw [hr]
        rfl
      len := by
        rw [hlen, hasked]
        exact h.len
      counted := by
        intro head hsome
        rw [hhead] at hsome
        obtain ⟨r, hr⟩ := hmem head
        rw [hr, hasked]
        exact h.counted head hsome
      few := h.few
      short := by
        intro i
        obtain ⟨r, hr⟩ := hmem i
        rw [hr]
        exact h.short i
      outside := by
        intro i hi
        obtain ⟨r, hr⟩ := hmem i
        rw [hnext, hdata i hi, hr]
        exact h.outside i hi
      skb := hskbs }

/-- Moving the start of a buffer that is in the chain takes bytes from the chain. -/
theorem CopyInv.nothing_moved (h : CopyInv frames s ids) (hk : k ∈ ids) {n e : ℕ}
    (hnext : t.mem.next = s.mem.next) (hhead : t.iov.head = s.iov.head)
    (hother : ∀ i, i ≠ k → t.mem.mbuf i = s.mem.mbuf i)
    (hself : (t.mem.mbuf k).dataLen = (s.mem.mbuf k).dataLen - e)
    (hfits : e ≤ (s.mem.mbuf k).dataLen) (hasked : t.asked.length = s.asked.length + n)
    (hrepresents : Represents t) : e = 0 ∧ n = 0 := by
  obtain ⟨chain, hlinked, hbytes, -⟩ := hrepresents
  rw [hnext, hhead] at hlinked
  obtain rfl := h.linked.unique hlinked
  have hsum := h.sum_lens
  have hsum' := congrArg List.length hbytes
  rw [length_bytesOf, hasked] at hsum'
  have hnodup := h.linked.nodup
  obtain ⟨pre, post, rfl⟩ := List.append_of_mem hk
  obtain ⟨-, hpost, hpre⟩ := List.nodup_append.mp hnodup
  have hpreLens : lensOf t.mem pre = lensOf s.mem pre :=
    lensOf_congr fun i hi => by rw [hother i fun heq => hpre i hi k (by simp) heq]
  have hpostLens : lensOf t.mem post = lensOf s.mem post :=
    lensOf_congr fun i hi => by
      rw [hother i fun heq => (List.nodup_cons.mp hpost).1 (heq ▸ hi)]
  rw [lensOf_append, lensOf_cons, List.sum_append, List.sum_cons] at hsum hsum'
  rw [hpreLens, hpostLens, hself] at hsum'
  omega

theorem skbs_update (h : CopyInv frames s ids) {n : ℕ}
    (hskbs : t.skbs = Function.update s.skbs k
      { headerMbuf := k, data := (s.skbs k).data + n, len := (s.skbs k).len }) :
    (∀ i, (t.skbs i).headerMbuf = i ∧ (t.skbs i).len = (frames i).len) ∧
      ∀ i, i ≠ k → (t.skbs i).data = (s.skbs i).data := by
  constructor
  · intro i
    by_cases hi : i = k
    · rw [hskbs, hi, Function.update_self]
      exact ⟨rfl, (h.skb k).2⟩
    · rw [hskbs, Function.update_of_ne hi]
      exact h.skb i
  · intro i hi
    rw [hskbs, Function.update_of_ne hi]

/-- A call on a buffer outside the chain. -/
theorem CopyInv.step_outside (h : CopyInv frames s ids) (hk : call.skb ∉ ids)
    (hstep : (copyMachine frames).step s call = some t) :
    (callOk s call → ∃ ids', CopyInv frames t ids') ∧ (Represents t → callOk s call) := by
  obtain ⟨hrange, u, hu, ht⟩ := copyMachine_step hstep
  obtain ⟨hmbuf, hlen⟩ := h.skb call.skb
  have hfits := (frames call.skb).fits
  have hshort := (frames call.skb).short
  have hrange' : call.offset + call.len ≤ (frames call.skb).len := by omega
  obtain ⟨hasked, -, hcase⟩ := skbCopyDatagramIovec_cases hu hmbuf hrange (by omega)
  have hasked' : t.asked = s.asked ++ call.range frames := by rw [ht]
  have hrangeLen := length_range hrange'
  unfold callOk
  rw [if_neg (mt h.inChain_iff.mp hk)]
  rcases hcase with ⟨hnone, hzero, hskbs, hiov, hmem⟩ | ⟨hoffset, -, hskbs, hlink⟩
  · refine ⟨fun _ => ⟨ids, ?_⟩, fun _ hless => absurd hless hnone⟩
    have hempty : call.range frames = [] := by
      rw [← List.length_eq_zero_iff, hrangeLen, hzero]
    refine h.adjust_outside hk ?_ ?_ ?_ ?_
    · rw [ht]
      exact hmem
    · rw [ht]
      exact hiov
    · rw [ht]
      exact hskbs
    · rw [hasked', hempty, List.append_nil]
  · have htskbs : t.skbs = u.skbs := by rw [ht]
    rw [← htskbs] at hskbs
    obtain ⟨hskb, hdata⟩ := skbs_update h hskbs
    have happended : Appended s t ids call.skb
          ((frames call.skb).frame.drop ((frames call.skb).pulled + call.offset)) ∧
        t.iov.len = s.iov.len + (call.range frames).length := by
      rw [hrangeLen]
      rcases hlink with ⟨hempty, hiov, hmem⟩ | ⟨htail, -⟩ |
        ⟨head, tail, hhead, htail, -, hiov, hmem⟩
      · have hids : ids = [] := by
          rcases hempty with hhead | htail
          · exact h.head_eq_none_iff.mp hhead
          · have hlast := h.tail
            rw [htail] at hlast
            exact List.getLast?_eq_none_iff.mp hlast.symm
        subst hids
        refine ⟨h.appended_empty hk call.offset (show t.iov = _ by rw [ht]; exact hiov) ?_, ?_⟩
        · rw [ht]
          exact hmem
        · rw [ht, hiov]
      · exfalso
        rw [h.tail] at htail
        exact hk (List.mem_of_getLast? htail)
      · refine ⟨h.appended_behind hk call.offset hhead htail
          (show t.iov = _ by rw [ht]; exact hiov) ?_, ?_⟩
        · rw [ht]
          exact hmem
        · rw [ht, hiov]
    obtain ⟨happended, hiovLen⟩ := happended
    have hiff := happended.represents_iff h hiovLen hasked' (by omega)
    rw [drop_frame_eq_range_iff hrange', ← (h.distance_outside hk).2,
      ← h.roomForSegment_iff] at hiff
    refine ⟨fun hok => ⟨ids ++ [call.skb], ?_⟩, fun hrep _ => hiff.mp hrep⟩
    obtain ⟨hall, hroom⟩ := hok hoffset
    rw [(h.distance_outside hk).2] at hall
    exact h.append happended hiovLen hasked' (by omega) hskb hdata
      ((drop_frame_eq_range_iff hrange').mpr hall) (h.roomForSegment_iff.mp hroom)

/-- A call on a buffer of the chain: the chain keeps what it has only when nothing is
moved and nothing is linked again. -/
theorem CopyInv.step_inside (h : CopyInv frames s ids) (hk : call.skb ∈ ids)
    (hstep : (copyMachine frames).step s call = some t) :
    (callOk s call → ∃ ids', CopyInv frames t ids') ∧ (Represents t → callOk s call) := by
  obtain ⟨hrange, u, hu, ht⟩ := copyMachine_step hstep
  obtain ⟨hmbuf, hlen⟩ := h.skb call.skb
  have hfits := (frames call.skb).fits
  have hshort := (frames call.skb).short
  have hrange' : call.offset + call.len ≤ (frames call.skb).len := by omega
  obtain ⟨-, hdistance, hcase⟩ := skbCopyDatagramIovec_cases hu hmbuf hrange (by omega)
  have hasked : t.asked.length = s.asked.length + call.len := by
    rw [ht, List.length_append, length_range hrange']
  have hunasked : call.len = 0 → t.asked = s.asked := by
    intro hzero
    have hempty : call.range frames = [] := by
      rw [← List.length_eq_zero_iff, length_range hrange', hzero]
    rw [ht, hempty, List.append_nil]
  unfold callOk
  rw [if_pos (h.inChain_iff.mpr hk)]
  rcases hcase with ⟨hnone, hzero, hskbs, hiov, hmem⟩ | ⟨hoffset, hroom, hskbs, hlink⟩
  · have htmem : t.mem = s.mem.modify call.skb (·.adjusted (s.distance call.skb)) := by
      rw [ht]
      exact hmem
    have htiov : t.iov = s.iov := by
      rw [ht]
      exact hiov
    constructor
    · rintro ⟨hstill, -⟩
      refine ⟨ids, h.counted_again ?_ (by rw [htiov]) (by rw [htiov]) (by rw [htiov])
        (hunasked hzero) ?_ ?_⟩
      · intro i
        refine ⟨(s.mem.mbuf i).refcnt, ?_⟩
        rw [htmem, hstill]
        by_cases hi : i = call.skb
        · rw [hi, MbufMem.modify_self, Mbuf.adjusted_zero]
        · rw [MbufMem.modify_of_ne _ _ hi]
      · intro i
        rw [ht]
        exact hskbs ▸ h.skb i
      · intro i _
        rw [ht, hskbs]
    · intro hrep
      refine ⟨?_, fun hless => absurd hless hnone⟩
      refine (h.nothing_moved hk (n := call.len) ?_ (by rw [htiov]) ?_ ?_ hdistance hasked
        hrep).1
      · rw [htmem]
        exact MbufMem.next_modify _ _ rfl
      · intro i hi
        rw [htmem, MbufMem.modify_of_ne _ _ hi]
      · rw [htmem, MbufMem.modify_self]
        rfl
  · have htskbs : t.skbs = u.skbs := by rw [ht]
    rw [← htskbs] at hskbs
    obtain ⟨hskb, hdata⟩ := skbs_update h hskbs
    rcases hlink with ⟨hempty, -⟩ | ⟨htail, hiov, hmem⟩ |
      ⟨head, tail, hhead, htail, hne, hiov, hmem⟩
    · exfalso
      have hids : ids = [] := by
        rcases hempty with hhead | htail
        · exact h.head_eq_none_iff.mp hhead
        · have hlast := h.tail
          rw [htail] at hlast
          exact List.getLast?_eq_none_iff.mp hlast.symm
      rw [hids] at hk
      cases hk
    · have htmem : t.mem = s.linkedMem call.skb call.offset := by
        rw [ht]
        exact hmem
      have htiov : t.iov = { head := s.iov.head, tail := some call.skb
                             len := s.iov.len + call.len } := by
        rw [ht]
        exact hiov
      constructor
      · rintro ⟨hstill, hsame⟩
        obtain ⟨-, hstart, hzero⟩ := hsame hoffset
        refine ⟨ids, h.counted_again ?_ (by rw [htiov]) (by rw [htiov, htail])
          (by rw [htiov, hzero]; rfl) (hunasked hzero) hskb
          fun i hi => hdata i fun heq => hi (heq ▸ hk)⟩
        intro i
        rw [htmem]
        by_cases hi : i = call.skb
        · refine ⟨(s.mem.mbuf i).refcnt + 1, ?_⟩
          rw [hi, linkedMem_self, hstill, hstart, Nat.add_zero, Mbuf.adjusted_zero]
        · exact ⟨(s.mem.mbuf i).refcnt, by rw [linkedMem_of_ne _ _ hi]⟩
      · intro hrep
        obtain ⟨hmoved, hzero⟩ := h.nothing_moved hk (n := call.len)
          (by rw [htmem, next_linkedMem]) (by rw [htiov])
          (fun i hi => by rw [htmem, linkedMem_of_ne _ _ hi])
          (by rw [htmem, linkedMem_self]; rfl) hroom hasked hrep
        exact ⟨by omega, fun _ => ⟨htail, by omega, hzero⟩⟩
    · have hcycle : ¬ Represents t := by
        rintro ⟨chain, hlinked, -⟩
        have hnext : t.mem.next = Function.update s.mem.next tail (some call.skb) := by
          rw [ht, hmem, MbufMem.next_modify _ _ rfl, MbufMem.next_setNext, next_linkedMem]
        obtain ⟨pre, rfl⟩ : ∃ pre, ids = pre ++ [tail] := by
          have hlast := h.tail
          rw [htail] at hlast
          exact ⟨ids.dropLast, (List.dropLast_append_getLast? tail hlast.symm).symm⟩
        have hpre : call.skb ∈ pre := by
          rcases List.mem_append.mp hk with hpre | hlast
          · exact hpre
          · exact absurd (List.mem_singleton.mp hlast).symm hne
        have hold := h.linked
        rw [hhead] at hold
        have hnew : t.iov.head = some head := by rw [ht, hiov]
        rw [hnext, hnew] at hlinked
        exact Linked.not_of_cycle hold hpre hlinked
      refine ⟨fun hok => ?_, fun hrep => absurd hrep hcycle⟩
      obtain ⟨hsame, -⟩ := hok.2 hoffset
      rw [htail] at hsame
      exact absurd (Option.some.inj hsame) hne

end Step

/-- **The chain is the payload.**  While every call meets `callOk`, the chain of the
iovec is exactly what the calls asked for; and a next call that returns 0 keeps it so
exactly when it meets `callOk`. -/
theorem chain_is_payload {s : CopyState} (hreach : (copyMachine frames).ReachableWhere callOk s) :
    Represents s ∧ ∀ (call : CopyCall) (t : CopyState),
      (copyMachine frames).step s call = some t → (Represents t ↔ callOk s call) := by
  have hstep : ∀ (s : CopyState) (ids : List ℕ) (call : CopyCall) (t : CopyState),
      CopyInv frames s ids → (copyMachine frames).step s call = some t →
        (callOk s call → ∃ ids', CopyInv frames t ids') ∧ (Represents t → callOk s call) := by
    intro s ids call t h hst
    by_cases hk : call.skb ∈ ids
    · exact h.step_inside hk hst
    · exact h.step_outside hk hst
  obtain ⟨ids, h⟩ : ∃ ids, CopyInv frames s ids := by
    refine @Machine.invariant_of_step _ _ (copyMachine frames) callOk
      (fun s => ∃ ids, CopyInv frames s ids) ⟨[], CopyInv.init⟩ ?_ s hreach
    rintro s call t ⟨ids, h⟩ hok hst
    exact (hstep s ids call t h hst).1 hok
  refine ⟨h.represents, fun call t hst => ⟨(hstep s ids call t h hst).2, fun hok => ?_⟩⟩
  obtain ⟨ids', h'⟩ := (hstep s ids call t h hst).1 hok
  exact h'.represents

/-- A frame with two bytes of headers and two bytes of payload. -/
def plainFrame : ReceivedFrame where
  headroom := 128
  frame := [1, 2, 65, 66]
  pulled := 2
  len := 2
  fits := by decide
  short := by decide

/-- A frame whose second byte behind the headers is padding. -/
def paddedFrame : ReceivedFrame := { plainFrame with len := 1, fits := by decide }

/-- The payload of one skb and the end of the payload of another. -/
theorem chain_is_payload_two :
    ∃ s, (copyMachine fun _ => plainFrame).ReachableWhere callOk s ∧ s.asked = [65, 66, 66] ∧
      Represents s := by
  have hrun : (((copyMachine fun _ => plainFrame).restrict callOk).run
      [⟨0, 0, 2⟩, ⟨1, 1, 1⟩]).map CopyState.asked = some [65, 66, 66] := by decide +kernel
  obtain ⟨s, hs, hasked⟩ := Option.map_eq_some_iff.mp hrun
  have hreach := (copyMachine fun _ => plainFrame).reachableWhere_of_run hs
  exact ⟨s, hreach, hasked, (chain_is_payload hreach).1⟩

/-- The padding of a short frame and the rest of a payload that is read in part are
counted and handed out. -/
theorem chain_has_more_than_payload :
    (∃ s, (copyMachine fun _ => paddedFrame).run [⟨0, 0, 1⟩] = some s ∧ ¬ Represents s) ∧
      ∃ s, (copyMachine fun _ => plainFrame).run [⟨0, 0, 1⟩] = some s ∧ ¬ Represents s := by
  have hcount : ∀ s : CopyState, s.iov.head = some 0 → (s.mem.mbuf 0).pktLen = 2 →
      s.asked = [65] → ¬ Represents s := by
    rintro s hhead hpktLen hasked ⟨ids, -, -, -, hcounted⟩
    have hwrong := (hcounted 0 hhead).1
    rw [hpktLen, hasked] at hwrong
    cases hwrong
  constructor
  · have hrun : ((copyMachine fun _ => paddedFrame).run [⟨0, 0, 1⟩]).map (fun s =>
        (s.iov.head, (s.mem.mbuf 0).pktLen, s.asked)) = some (some 0, 2, [65]) := by
      decide +kernel
    obtain ⟨s, hs, hview⟩ := Option.map_eq_some_iff.mp hrun
    obtain ⟨hhead, hrest⟩ := Prod.mk.inj hview
    obtain ⟨hpktLen, hasked⟩ := Prod.mk.inj hrest
    exact ⟨s, hs, hcount s hhead hpktLen hasked⟩
  · have hrun : ((copyMachine fun _ => plainFrame).run [⟨0, 0, 1⟩]).map (fun s =>
        (s.iov.head, (s.mem.mbuf 0).pktLen, s.asked)) = some (some 0, 2, [65]) := by
      decide +kernel
    obtain ⟨s, hs, hview⟩ := Option.map_eq_some_iff.mp hrun
    obtain ⟨hhead, hrest⟩ := Prod.mk.inj hview
    obtain ⟨hpktLen, hasked⟩ := Prod.mk.inj hrest
    exact ⟨s, hs, hcount s hhead hpktLen hasked⟩

end IpAugenblick
