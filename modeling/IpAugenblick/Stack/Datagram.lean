/-
# One datagram for several sockets

A multicast datagram is queued on every socket that listens: `flush_stack` queues the skb on the
last one and a clone on each other.  The clones have their own `data` pointer and share the
packet buffer.  `skb_copy_datagram_iovec` moves the start of the buffer's data to the skb's
`data`, and `memcpy_toiovec` moves it on to the payload; the next clone finds the start beyond
its own `data`, the distance wraps to a 16-bit number, and the service exits.

A short datagram comes in a padded frame.  IP and UDP trim the skb, not the buffer, so the
client also reads the padding.
-/

import IpAugenblick.Lib.Machine
import IpAugenblick.Mbuf
import Mathlib.Data.Finset.Card
import Mathlib.Data.Finset.Range

namespace IpAugenblick

open Lib

/-- `rte_pktmbuf_adj`, with its 16-bit length. -/
def Mbuf.rtePktmbufAdj (m : Mbuf) (len : ℕ) : Option Mbuf :=
  if m.dataLen < len then none
  else some { m with
    dataOff := m.dataOff + len, dataLen := m.dataLen - len, pktLen := m.pktLen - len }

/-- What is copied behind the data does not show before it. -/
theorem Mbuf.slice_write_of_le (m : Mbuf) {off start : ℕ} {bs : List UInt8}
    (h : off + bs.length ≤ start) (n : ℕ) : (m.write off bs).slice start n = m.slice start n := by
  unfold Mbuf.slice
  apply List.map_congr_left
  intro i _
  have hoff : off ≤ start + i := by omega
  have hbeyond : bs.length ≤ start + i - off := by omega
  simp only [Mbuf.write, hoff, if_true, List.getD_eq_default _ _ hbeyond]

/-- `sizeof(struct udphdr)`. -/
def udpHeaderLen : ℕ := 8

structure UdpFrame where
  /-- `data_off` of the buffer as the port fills it. -/
  headroom : ℕ
  /-- The link and IP headers. -/
  headers : List UInt8
  udp : List UInt8
  payload : List UInt8
  /-- What follows the datagram in the frame. -/
  padding : List UInt8
  /-- The `sockaddr_in` of the sender. -/
  name : List UInt8
  headers_length : 20 ≤ headers.length
  udp_length : udp.length = udpHeaderLen
  name_length : name.length = 16
  fits : (headers ++ udp ++ payload ++ padding).length < 65536

namespace UdpFrame

variable (f : UdpFrame)

def bytes : List UInt8 := f.headers ++ f.udp ++ f.payload ++ f.padding

def emptyMbuf : Mbuf where
  dataOff := f.headroom
  dataLen := f.bytes.length
  pktLen := f.bytes.length
  nbSegs := 1
  next := none
  refcnt := 1
  buf := fun _ => 0

/-- The buffer of the frame. -/
def mbuf : Mbuf := f.emptyMbuf.write f.headroom f.bytes

end UdpFrame

/-- A linear received skb: `data`, as an offset into its buffer, and `len`. -/
structure RxSkb where
  headerMbuf : ℕ
  data : ℕ
  len : ℕ

/-- The skb as `__udp4_lib_rcv` hands it on: `data` is at the UDP header. -/
def UdpFrame.skb (f : UdpFrame) : RxSkb where
  headerMbuf := 0
  data := f.headroom + f.headers.length
  len := udpHeaderLen + f.payload.length

/-- What `skb_copy_datagram_iovec` does: `exit(1)`, -EFAULT, or 0 with the head of the iovec. -/
inductive CopyResult
  | exit
  | fault (M : MbufMem)
  | done (M : MbufMem) (head : Option ℕ)

/-- `memcpy_toiovec` on an empty iovec. -/
def memcpyToiovec (M : MbufMem) (mbuf offset : ℕ) : Option MbufMem :=
  ((M.mbuf mbuf).rtePktmbufAdj (offset % 65536)).map fun m =>
    (M.modify mbuf fun _ => { m with pktLen := m.dataLen, nbSegs := 1 }).rteMbufRefcntUpdate mbuf 1

/-- `skb_copy_datagram_iovec` of a linear skb to an empty iovec. -/
def skbCopyDatagramIovec (M : MbufMem) (skb : RxSkb) (offset len : ℕ) : CopyResult :=
  let distance := ((skb.data : ℤ) - (M.mbuf skb.headerMbuf).dataOff) % 65536
  match (M.mbuf skb.headerMbuf).rtePktmbufAdj distance.toNat with
  | none => .exit
  | some m =>
      let M := M.modify skb.headerMbuf fun _ => m
      if offset < skb.len then
        match memcpyToiovec M skb.headerMbuf offset with
        | none => .fault M
        | some M => if len ≤ skb.len - offset then .done M (some skb.headerMbuf) else .fault M
      else if len = 0 then .done M none
      else .fault M

/-- The sockets of one datagram. -/
structure DatagramState where
  /-- Buffer 0 is the frame's. -/
  mem : MbufMem
  /-- The receive queue of each socket. -/
  queue : ℕ → Option RxSkb
  /-- The buffer is in the `rx_ring` of the socket or with its client. -/
  held : ℕ → Bool
  /-- What the calls of `udp_recvmsg` returned. -/
  returned : List ℤ
  exited : Bool

namespace DatagramState

/-- What the client of a socket reads: `rte_pktmbuf_pkt_len` bytes from `rte_pktmbuf_mtod`. -/
def view (s : DatagramState) : List UInt8 :=
  (s.mem.mbuf 0).slice (s.mem.mbuf 0).dataOff (s.mem.mbuf 0).pktLen

/-- `user_data_available_cbk` on socket `i`: one `udp_recvmsg` without a bound on the length, and
the buffer is submitted with the sender's address in front of it.  `skb_free_datagram_locked`
gives up the reference of the skb. -/
def recvmsg (f : UdpFrame) (s : DatagramState) (i : ℕ) (skb : RxSkb) : DatagramState :=
  let copied := skb.len - udpHeaderLen
  match skbCopyDatagramIovec s.mem skb udpHeaderLen copied with
  | .exit => { s with exited := true }
  | .fault M =>
      { s with
        mem := M.rtePktmbufFreeSeg skb.headerMbuf
        queue := Function.update s.queue i none
        returned := -14 :: s.returned }
  | .done M none =>
      { s with
        mem := M.rtePktmbufFreeSeg skb.headerMbuf
        queue := Function.update s.queue i none
        returned := copied :: s.returned }
  | .done M (some head) =>
      { s with
        mem := (M.rtePktmbufFreeSeg skb.headerMbuf).modify head fun m =>
          m.write (m.dataOff - f.name.length) f.name
        queue := Function.update s.queue i none
        held := Function.update s.held i true
        returned := copied :: s.returned }

end DatagramState

/-- `flush_stack` with `n` sockets: every socket but the last gets a clone, and `__skb_clone` takes
a reference to the shared buffer. -/
def flushStack (M : MbufMem) (skb : RxSkb) : ℕ → MbufMem
  | 0 => M
  | 1 => M
  | n + 2 => (flushStack M skb (n + 1)).rteMbufRefcntUpdate skb.headerMbuf 1

inductive DatagramStep
  | /-- The service reads from socket `i`. -/
    recvmsg (i : ℕ)
  | /-- The client of socket `i` releases the buffer. -/
    release (i : ℕ)

/-- The datagram `f` is delivered to `n` sockets.  They get clones of one skb, so all of them have
the one buffer of the frame, and what the first reader does to its window shows at the others. -/
def datagramMachine (f : UdpFrame) (n : ℕ) : Machine DatagramState DatagramStep where
  init :=
    { mem := flushStack { mbuf := fun _ => f.mbuf, size := 1, frees := [], puts := [] } f.skb n
      queue := fun i => if i < n then some f.skb else none
      held := fun _ => false, returned := [], exited := false }
  step s
    | .recvmsg i =>
        if s.exited then none
        else (s.queue i).map (s.recvmsg f i)
    | .release i =>
        if s.exited then none
        else if s.held i then
          some { s with
            mem := s.mem.rtePktmbufFree (some 0)
            held := Function.update s.held i false }
        else none

/-- Every socket obtains the datagram: no call has ended the service, every call has returned the
length of the payload, and whoever has the buffer reads the payload from a buffer in use. -/
structure Intact (f : UdpFrame) (s : DatagramState) : Prop where
  running : s.exited = false
  returned : ∀ r ∈ s.returned, r = f.payload.length
  reads : ∀ i, s.held i = true → s.view = f.payload
  inUse : ∀ i, s.held i = true ∨ s.queue i ≠ none → 0 ∉ s.mem.puts

/-! ## The buffer through the calls -/

section Buffer

variable {f : UdpFrame} {M : MbufMem}

theorem MbufMem.modify_modify (M : MbufMem) (i : ℕ) (g h : Mbuf → Mbuf) :
    (M.modify i g).modify i h = M.modify i fun m => h (g m) := by
  simp only [MbufMem.modify, Function.update_self, Function.update_idem]

/-- A free touches the count of a buffer, and clears its link or leaves it. -/
theorem MbufMem.mbuf_rtePktmbufFreeSeg_self (M : MbufMem) (i : ℕ) :
    ∃ next refcnt, (M.rtePktmbufFreeSeg i).mbuf i = { M.mbuf i with next, refcnt } ∧
      (next = none ∨ next = (M.mbuf i).next) := by
  unfold MbufMem.rtePktmbufFreeSeg
  dsimp only
  split
  · refine ⟨none, (M.mbuf i).refcnt + -1, ?_, .inl rfl⟩
    simp only [MbufMem.setNext, MbufMem.rteMbufRefcntUpdate, MbufMem.modify_self]
  · refine ⟨(M.mbuf i).next, (M.mbuf i).refcnt + -1, ?_, .inr rfl⟩
    simp only [MbufMem.rteMbufRefcntUpdate, MbufMem.modify_self]

theorem UdpFrame.length_bytes (f : UdpFrame) : f.bytes.length =
    f.headers.length + udpHeaderLen + f.payload.length + f.padding.length := by
  simp only [UdpFrame.bytes, List.length_append, f.udp_length]

/-- The buffer with its data at the UDP header. -/
def UdpFrame.atUdp (f : UdpFrame) (m : Mbuf) : Mbuf :=
  { m with
    dataOff := f.headroom + f.headers.length
    dataLen := f.bytes.length - f.headers.length
    pktLen := m.pktLen - (f.headroom + f.headers.length - m.dataOff) }

/-- The buffer as it is submitted: its data begins with the payload. -/
def UdpFrame.atPayload (f : UdpFrame) (m : Mbuf) : Mbuf :=
  { m with
    dataOff := f.headroom + f.headers.length + udpHeaderLen
    dataLen := f.payload.length + f.padding.length
    pktLen := f.payload.length + f.padding.length
    nbSegs := 1
    refcnt := m.refcnt + 1 }

/-- The data of the buffer begins at or before the UDP header and ends with the frame. -/
structure UdpFrame.Window (f : UdpFrame) (m : Mbuf) : Prop where
  start : m.dataOff = f.headroom ∨ m.dataOff = f.headroom + f.headers.length
  stop : m.dataOff + m.dataLen = f.headroom + f.bytes.length

/-- The distance to the UDP header, in 16 bits. -/
theorem UdpFrame.Window.adj {m : Mbuf} (h : f.Window m) :
    m.rtePktmbufAdj (((f.skb.data : ℤ) - m.dataOff) % 65536).toNat = some (f.atUdp m) := by
  have hfits := f.fits
  have hlength := f.length_bytes
  have hstop := h.stop
  have hdistance : (((f.skb.data : ℤ) - m.dataOff) % 65536).toNat =
      f.headroom + f.headers.length - m.dataOff := by
    simp only [UdpFrame.skb]
    simp only [List.length_append] at hfits
    rcases h.start with hstart | hstart <;> omega
  rw [hdistance, Mbuf.rtePktmbufAdj, if_neg (by rcases h.start with hstart | hstart <;> omega),
    UdpFrame.atUdp]
  have hoff : m.dataOff + (f.headroom + f.headers.length - m.dataOff) =
      f.headroom + f.headers.length := by
    rcases h.start with hstart | hstart <;> omega
  have hlen : m.dataLen - (f.headroom + f.headers.length - m.dataOff) =
      f.bytes.length - f.headers.length := by
    rcases h.start with hstart | hstart <;> omega
  rw [hoff, hlen]

/-- Moving on to the payload. -/
theorem UdpFrame.memcpyToiovec_atUdp (f : UdpFrame) (M : MbufMem) :
    memcpyToiovec (M.modify 0 fun _ => f.atUdp (M.mbuf 0)) 0 udpHeaderLen =
      some (M.modify 0 f.atPayload) := by
  have hlength := f.length_bytes
  have hadj : (f.atUdp (M.mbuf 0)).rtePktmbufAdj (udpHeaderLen % 65536) =
      some { f.atUdp (M.mbuf 0) with
        dataOff := f.headroom + f.headers.length + udpHeaderLen
        dataLen := f.payload.length + f.padding.length
        pktLen := (f.atUdp (M.mbuf 0)).pktLen - udpHeaderLen } := by
    have hlen : f.bytes.length - f.headers.length - udpHeaderLen =
        f.payload.length + f.padding.length := by omega
    rw [Mbuf.rtePktmbufAdj, if_neg (by
      simp only [UdpFrame.atUdp, udpHeaderLen] at hlength ⊢
      omega)]
    simp only [UdpFrame.atUdp, udpHeaderLen, Nat.reduceMod] at hlen ⊢
    rw [hlen]
  rw [memcpyToiovec, MbufMem.modify_self, hadj, Option.map_some]
  simp only [MbufMem.rteMbufRefcntUpdate, MbufMem.modify_modify]
  rfl

/-- **A call on a buffer that no other call has moved past the UDP header.** -/
theorem UdpFrame.copy_window (hM : f.Window (M.mbuf 0)) :
    skbCopyDatagramIovec M f.skb udpHeaderLen f.payload.length =
      if f.payload = [] then .done (M.modify 0 fun _ => f.atUdp (M.mbuf 0)) none
      else .done (M.modify 0 f.atPayload) (some 0) := by
  have hlen : f.skb.len - udpHeaderLen = f.payload.length := Nat.add_sub_cancel_left _ _
  unfold skbCopyDatagramIovec
  dsimp only
  rw [show f.skb.headerMbuf = 0 from rfl, hM.adj]
  dsimp only
  rw [f.memcpyToiovec_atUdp]
  dsimp only
  rw [hlen, if_pos (Nat.le_refl _)]
  by_cases hpayload : f.payload = []
  · rw [if_pos hpayload, if_neg (by simp [UdpFrame.skb, hpayload]), if_pos (by simp [hpayload])]
  · have hpos : udpHeaderLen < f.skb.len :=
      Nat.lt_add_of_pos_right (List.length_pos_iff.mpr hpayload)
    rw [if_neg hpayload, if_pos hpos]

/-- **A call on a buffer that another call has moved to the payload ends the service.** -/
theorem UdpFrame.copy_atPayload
    (hM : (M.mbuf 0).dataOff = f.headroom + f.headers.length + udpHeaderLen)
    (hlen : (M.mbuf 0).dataLen = f.payload.length + f.padding.length) (offset len : ℕ) :
    skbCopyDatagramIovec M f.skb offset len = .exit := by
  have hfits := f.fits
  have hlength := f.length_bytes
  have hdistance : (((f.skb.data : ℤ) - (M.mbuf 0).dataOff) % 65536).toNat = 65528 := by
    rw [hM]
    simp only [UdpFrame.skb, udpHeaderLen]
    omega
  have hshort : (M.mbuf 0).dataLen < 65528 := by
    rw [hlen]
    have htotal : f.bytes.length < 65536 := hfits
    simp only [udpHeaderLen] at hlength
    omega
  unfold skbCopyDatagramIovec
  dsimp only
  rw [show f.skb.headerMbuf = 0 from rfl, hdistance, Mbuf.rtePktmbufAdj, if_pos hshort]

/-- What is read behind the headers. -/
theorem UdpFrame.slice_payload (f : UdpFrame) {m : Mbuf} (hbuf : m.buf = f.mbuf.buf) :
    m.slice (f.headroom + f.headers.length + udpHeaderLen) (f.payload.length + f.padding.length) =
      f.payload ++ f.padding := by
  have hlength := f.length_bytes
  have hdata : f.mbuf.data = f.bytes := by
    have hread := f.emptyMbuf.slice_write f.headroom f.bytes (Nat.le_refl _)
    rw [List.take_length] at hread
    exact hread
  have hfit : f.headers.length + udpHeaderLen + (f.payload.length + f.padding.length) ≤
      f.mbuf.dataLen := by
    show _ ≤ f.bytes.length
    omega
  have hwindow := f.mbuf.slice_eq_window hfit
  have hsame : ∀ off len, m.slice off len = f.mbuf.slice off len := by
    intro off len
    rw [Mbuf.slice, hbuf]
    rfl
  have hsplit : f.bytes = (f.headers ++ f.udp) ++ (f.payload ++ f.padding) := by
    rw [UdpFrame.bytes, List.append_assoc (f.headers ++ f.udp)]
  rw [hdata, hsplit, List.drop_left' (by rw [List.length_append, f.udp_length]),
    List.take_of_length_le (Nat.le_of_eq List.length_append)] at hwindow
  rw [hsame, Nat.add_assoc]
  exact hwindow

end Buffer

/-! ## The sockets -/

namespace DatagramState

/-- The socket has its skb queued, or has the buffer. -/
def uses (s : DatagramState) (i : ℕ) : Bool := s.held i || (s.queue i).isSome

def users (n : ℕ) (s : DatagramState) : Finset ℕ := (Finset.range n).filter fun i => s.uses i

/-- The invariant of the deliveries that go well. -/
structure Inv (f : UdpFrame) (n : ℕ) (s : DatagramState) : Prop where
  running : s.exited = false
  returned : ∀ r ∈ s.returned, r = f.payload.length
  queued : ∀ i skb, s.queue i = some skb → i < n ∧ skb = f.skb ∧ s.held i = false
  holds : ∀ i, s.held i = true → i < n ∧ f.payload ≠ []
  fresh : (∃ i, s.queue i ≠ none) → f.Window (s.mem.mbuf 0) ∧ (s.mem.mbuf 0).buf = f.mbuf.buf
  reads : ∀ i, s.held i = true → s.view = f.payload
  refs : s.mem.refcnt 0 = (s.users n).card
  puts : s.mem.PutsOk 0
  single : s.mem.next 0 = none
  size : s.mem.size = 1

variable {f : UdpFrame} {n : ℕ} {s t : DatagramState}

theorem uses_of_queue {i : ℕ} (h : s.queue i ≠ none) : s.uses i = true := by
  rw [uses, Option.isSome_iff_ne_none.mpr h, Bool.or_true]

/-- A buffer in use is not in the pool. -/
theorem Inv.intact (h : s.Inv f n) : Intact f s where
  running := h.running
  returned := h.returned
  reads := h.reads
  inUse := by
    intro i huse
    have hi : i ∈ s.users n := by
      rw [users, Finset.mem_filter, Finset.mem_range]
      rcases huse with hheld | hqueue
      · exact ⟨(h.holds i hheld).1, by rw [uses, hheld, Bool.true_or]⟩
      · obtain ⟨skb, hskb⟩ := Option.ne_none_iff_exists'.mp hqueue
        exact ⟨(h.queued i skb hskb).1, uses_of_queue hqueue⟩
    have hpos : 1 ≤ (s.users n).card := Finset.card_pos.mpr ⟨i, hi⟩
    have hputs := h.puts
    rw [MbufMem.PutsOk, if_neg (by rw [h.refs]; omega)] at hputs
    exact List.count_eq_zero.mp hputs

/-- One socket less uses the buffer. -/
theorem users_erase {i : ℕ} (hother : ∀ j, j ≠ i → t.uses j = s.uses j) (hi : t.uses i = false) :
    t.users n = (s.users n).erase i := by
  ext j
  simp only [users, Finset.mem_erase, Finset.mem_filter, Finset.mem_range]
  by_cases hj : j = i
  · subst hj
    simp only [hi, Bool.false_eq_true, and_false, ne_eq, not_true_eq_false, false_and]
  · simp only [hother j hj, ne_eq, hj, not_false_eq_true, true_and]

theorem card_users_erase {i : ℕ} (hother : ∀ j, j ≠ i → t.uses j = s.uses j)
    (hi : t.uses i = false) (hlt : i < n) (hused : s.uses i = true) :
    ((t.users n).card : ℤ) = (s.users n).card - 1 := by
  have hmem : i ∈ s.users n := Finset.mem_filter.mpr ⟨Finset.mem_range.mpr hlt, hused⟩
  have hpos : 1 ≤ (s.users n).card := Finset.card_pos.mpr ⟨i, hmem⟩
  rw [users_erase hother hi, Finset.card_erase_of_mem hmem]
  omega

theorem users_congr (h : ∀ j, t.uses j = s.uses j) : t.users n = s.users n := by
  unfold users
  simp only [h]

/-- The link of a single buffer stays null when it is freed. -/
theorem next_freeSeg (M : MbufMem) (h : M.next 0 = none) :
    (M.rtePktmbufFreeSeg 0).next 0 = none := by
  obtain ⟨next, refcnt, hmbuf, hnext⟩ := M.mbuf_rtePktmbufFreeSeg_self 0
  rw [MbufMem.next, hmbuf]
  rcases hnext with hnext | hnext
  · exact hnext
  · exact hnext.trans h

/-- A client releases the buffer. -/
theorem Inv.release (h : s.Inv f n) {i : ℕ} (hi : s.held i = true) :
    Inv f n { s with
      mem := s.mem.rtePktmbufFree (some 0), held := Function.update s.held i false } := by
  have hfree : s.mem.rtePktmbufFree (some 0) = s.mem.rtePktmbufFreeSeg 0 := by
    have hlinked : Linked s.mem.next (some 0) [0] := ⟨rfl, h.single⟩
    rw [MbufMem.rtePktmbufFree_eq_foldl _ hlinked (by rw [h.size]; exact Nat.le_refl 1)]
    rfl
  have hqueue : s.queue i = none := by
    cases hqueue : s.queue i with
    | none => rfl
    | some skb =>
        have hfree := (h.queued i skb hqueue).2.2
        rw [hi] at hfree
        cases hfree
  obtain ⟨next, refcnt, hmbuf, -⟩ := s.mem.mbuf_rtePktmbufFreeSeg_self 0
  have hheld : ∀ j, Function.update s.held i false j = true → s.held j = true := by
    intro j hj
    by_cases hne : j = i
    · rw [hne, Function.update_self] at hj
      cases hj
    · rwa [Function.update_of_ne hne] at hj
  have hused : s.uses i = true := by rw [uses, hi, Bool.true_or]
  rw [hfree]
  refine
    { running := h.running, returned := h.returned, queued := ?_, holds := ?_, fresh := ?_
      reads := ?_, refs := ?_, puts := h.puts.freeSeg 0, single := next_freeSeg _ h.single
      size := (MbufMem.size_rtePktmbufFreeSeg _ _).trans h.size }
  · intro j skb hj
    obtain ⟨hlt, hskb, hnot⟩ := h.queued j skb hj
    refine ⟨hlt, hskb, Bool.eq_false_iff.mpr fun hset => ?_⟩
    rw [hheld j hset] at hnot
    cases hnot
  · exact fun j hj => h.holds j (hheld j hj)
  · intro hqueued
    obtain ⟨⟨hstart, hstop⟩, hbuf⟩ := h.fresh hqueued
    dsimp only
    rw [hmbuf]
    exact ⟨⟨hstart, hstop⟩, hbuf⟩
  · intro j hj
    have hview := h.reads j (hheld j hj)
    unfold view at hview ⊢
    dsimp only
    rw [hmbuf]
    exact hview
  · rw [MbufMem.refcnt, MbufMem.refcnt_rtePktmbufFreeSeg, card_users_erase (s := s) (i := i) _ _
      (h.holds i hi).1 hused, ← h.refs]
    · rfl
    · intro j hj
      simp only [uses, Function.update_of_ne hj]
    · simp only [uses, Function.update_self, hqueue, Option.isSome_none, Bool.or_self]

/-- A socket reads the empty datagram. -/
theorem Inv.recvmsg_empty (h : s.Inv f n) {i : ℕ} (hqueue : s.queue i = some f.skb)
    (hempty : f.payload = []) : (s.recvmsg f i f.skb).Inv f n := by
  obtain ⟨hlt, -, hnot⟩ := h.queued i f.skb hqueue
  obtain ⟨hwindow, hbuf⟩ := h.fresh ⟨i, by rw [hqueue]; exact Option.some_ne_none _⟩
  have hused : s.uses i = true := uses_of_queue (by rw [hqueue]; exact Option.some_ne_none _)
  have hlength := f.length_bytes
  have hrecv : s.recvmsg f i f.skb =
      { s with
        mem := (s.mem.modify 0 fun _ => f.atUdp (s.mem.mbuf 0)).rtePktmbufFreeSeg 0
        queue := Function.update s.queue i none
        returned := f.payload.length :: s.returned } := by
    have hcopied : f.skb.len - udpHeaderLen = f.payload.length := Nat.add_sub_cancel_left _ _
    unfold DatagramState.recvmsg
    dsimp only
    rw [hcopied, UdpFrame.copy_window hwindow, if_pos hempty]
    rfl
  obtain ⟨next, refcnt, hmbuf, -⟩ :=
    (s.mem.modify 0 fun _ => f.atUdp (s.mem.mbuf 0)).mbuf_rtePktmbufFreeSeg_self 0
  rw [MbufMem.modify_self] at hmbuf
  rw [hrecv]
  refine
    { running := h.running, returned := ?_, queued := ?_, holds := h.holds, fresh := ?_
      reads := fun j hj => absurd hempty (h.holds j hj).2, refs := ?_, puts := ?_
      single := ?_, size := (MbufMem.size_rtePktmbufFreeSeg _ _).trans h.size }
  · intro r hr
    rcases List.mem_cons.mp hr with rfl | hr
    · rfl
    · exact h.returned r hr
  · intro j skb hj
    dsimp only at hj
    by_cases hne : j = i
    · rw [hne, Function.update_self] at hj
      cases hj
    · rw [Function.update_of_ne hne] at hj
      exact h.queued j skb hj
  · intro _
    dsimp only
    rw [hmbuf]
    refine ⟨⟨.inr rfl, ?_⟩, hbuf⟩
    show f.headroom + f.headers.length + (f.bytes.length - f.headers.length) = _
    omega
  · rw [MbufMem.refcnt, MbufMem.refcnt_rtePktmbufFreeSeg, MbufMem.modify_self,
      card_users_erase (s := s) (i := i) _ _ hlt hused, ← h.refs]
    · rfl
    · intro j hj
      simp only [uses, Function.update_of_ne hj]
    · simp only [uses, Function.update_self, hnot, Option.isSome_none, Bool.or_self]
  · refine MbufMem.PutsOk.freeSeg ?_ 0
    have hputs := h.puts
    unfold MbufMem.PutsOk MbufMem.refcnt at hputs ⊢
    rw [MbufMem.modify_self]
    exact hputs
  · refine next_freeSeg _ ?_
    rw [MbufMem.next, MbufMem.modify_self]
    exact h.single

/-- The memory after a call that submits the buffer. -/
def submitted (f : UdpFrame) (s : DatagramState) : MbufMem :=
  ((s.mem.modify 0 f.atPayload).rtePktmbufFreeSeg 0).modify 0 fun m =>
    m.write (m.dataOff - f.name.length) f.name

theorem recvmsg_payload (hwindow : f.Window (s.mem.mbuf 0)) (hpayload : f.payload ≠ []) (i : ℕ) :
    s.recvmsg f i f.skb =
      { s with
        mem := s.submitted f
        queue := Function.update s.queue i none
        held := Function.update s.held i true
        returned := f.payload.length :: s.returned } := by
  have hcopied : f.skb.len - udpHeaderLen = f.payload.length := Nat.add_sub_cancel_left _ _
  unfold DatagramState.recvmsg
  dsimp only
  rw [hcopied, UdpFrame.copy_window hwindow, if_neg hpayload]
  rfl

/-- The submitted buffer begins with the payload and ends with the frame. -/
theorem mbuf_submitted (f : UdpFrame) (s : DatagramState) :
    ((s.submitted f).mbuf 0).dataOff = f.headroom + f.headers.length + udpHeaderLen ∧
      ((s.submitted f).mbuf 0).dataLen = f.payload.length + f.padding.length ∧
      ((s.submitted f).mbuf 0).pktLen = f.payload.length + f.padding.length := by
  obtain ⟨next, refcnt, hmbuf, -⟩ := (s.mem.modify 0 f.atPayload).mbuf_rtePktmbufFreeSeg_self 0
  rw [MbufMem.modify_self] at hmbuf
  rw [submitted, MbufMem.modify_self, hmbuf]
  exact ⟨rfl, rfl, rfl⟩

/-- Its client reads the payload and the padding. -/
theorem slice_submitted (hbuf : (s.mem.mbuf 0).buf = f.mbuf.buf) :
    ((s.submitted f).mbuf 0).slice ((s.submitted f).mbuf 0).dataOff
      ((s.submitted f).mbuf 0).pktLen = f.payload ++ f.padding := by
  obtain ⟨hoff, -, hlen⟩ := mbuf_submitted f s
  obtain ⟨next, refcnt, hmbuf, -⟩ := (s.mem.modify 0 f.atPayload).mbuf_rtePktmbufFreeSeg_self 0
  rw [MbufMem.modify_self] at hmbuf
  rw [hoff, hlen, submitted, MbufMem.modify_self, hmbuf]
  have hheaders := f.headers_length
  rw [Mbuf.slice_write_of_le]
  · exact f.slice_payload hbuf
  · show f.headroom + f.headers.length + udpHeaderLen - f.name.length + f.name.length ≤ _
    rw [f.name_length, udpHeaderLen]
    omega

/-- A call that submits the buffer keeps the count: the iovec's reference replaces the skb's. -/
theorem refcnt_submitted (f : UdpFrame) (s : DatagramState) :
    (s.submitted f).refcnt 0 = s.mem.refcnt 0 := by
  have hfree := (s.mem.modify 0 f.atPayload).refcnt_rtePktmbufFreeSeg 0
  rw [MbufMem.modify_self] at hfree
  rw [submitted, MbufMem.refcnt, MbufMem.modify_self]
  exact hfree.trans (add_sub_cancel_right _ _)

theorem putsOk_submitted (h : s.mem.PutsOk 0) (hpos : 1 ≤ s.mem.refcnt 0) :
    (s.submitted f).PutsOk 0 := by
  have hbefore : (s.mem.modify 0 f.atPayload).PutsOk 0 := by
    have hcount : (s.mem.modify 0 f.atPayload).refcnt 0 = s.mem.refcnt 0 + 1 := by
      rw [MbufMem.refcnt, MbufMem.modify_self]
      rfl
    unfold MbufMem.PutsOk at h ⊢
    rw [if_neg (by omega)] at h
    rw [hcount, if_neg (by omega)]
    exact h
  have hafter := hbefore.freeSeg 0
  unfold MbufMem.PutsOk MbufMem.refcnt at hafter ⊢
  rw [submitted, MbufMem.modify_self]
  exact hafter

theorem next_submitted (h : s.mem.next 0 = none) : (s.submitted f).next 0 = none := by
  have hbefore : (s.mem.modify 0 f.atPayload).next 0 = none := by
    rw [MbufMem.next, MbufMem.modify_self]
    exact h
  have hafter := next_freeSeg _ hbefore
  rw [submitted, MbufMem.next, MbufMem.modify_self]
  exact hafter

/-- The only socket reads a datagram without padding. -/
theorem Inv.recvmsg_one (h : s.Inv f 1) {i : ℕ} (hqueue : s.queue i = some f.skb)
    (hpayload : f.payload ≠ []) (hpadding : f.padding = []) : (s.recvmsg f i f.skb).Inv f 1 := by
  have hsome : s.queue i ≠ none := by
    rw [hqueue]
    exact Option.some_ne_none _
  obtain ⟨hlt, -, -⟩ := h.queued i f.skb hqueue
  obtain rfl : i = 0 := Nat.lt_one_iff.mp hlt
  obtain ⟨hwindow, hbuf⟩ := h.fresh ⟨0, hsome⟩
  have hused : s.uses 0 = true := uses_of_queue hsome
  have hother : ∀ j, j ≠ 0 → s.queue j = none := by
    intro j hj
    cases hq : s.queue j with
    | none => rfl
    | some skb => exact absurd (Nat.lt_one_iff.mp (h.queued j skb hq).1) hj
  have hempty : ∀ j, Function.update s.queue 0 none j = none := by
    intro j
    by_cases hj : j = 0
    · rw [hj, Function.update_self]
    · rw [Function.update_of_ne hj, hother j hj]
  have hpos : 1 ≤ s.mem.refcnt 0 := by
    have hmem : 0 ∈ s.users 1 := Finset.mem_filter.mpr ⟨Finset.mem_range.mpr hlt, hused⟩
    have hcard : 1 ≤ (s.users 1).card := Finset.card_pos.mpr ⟨0, hmem⟩
    rw [h.refs]
    omega
  rw [recvmsg_payload hwindow hpayload]
  refine
    { running := h.running, returned := ?_, queued := ?_, holds := ?_, fresh := ?_
      reads := ?_, refs := ?_, puts := ?_, single := ?_, size := ?_ }
  · intro r hr
    rcases List.mem_cons.mp hr with rfl | hr
    · rfl
    · exact h.returned r hr
  · intro j skb hj
    exact absurd ((hempty j).symm.trans hj) (Option.some_ne_none skb).symm
  · intro j hj
    dsimp only at hj
    by_cases hne : j = 0
    · exact ⟨by omega, hpayload⟩
    · rw [Function.update_of_ne hne] at hj
      exact h.holds j hj
  · rintro ⟨j, hj⟩
    exact absurd (hempty j) hj
  · intro j _
    have hview := slice_submitted hbuf
    rw [hpadding, List.append_nil] at hview
    exact hview
  · dsimp only
    rw [refcnt_submitted, h.refs, users_congr fun j => ?_]
    by_cases hj : j = 0
    · subst hj
      rw [hused]
      simp only [uses, Function.update_self, Bool.true_or]
    · simp only [uses, Function.update_of_ne hj]
  · exact putsOk_submitted h.puts hpos
  · exact next_submitted h.single
  · exact (MbufMem.size_rtePktmbufFreeSeg _ _).trans h.size

/-- **Step lemma.**  An empty datagram, or one socket and no padding. -/
theorem Inv.step (h : s.Inv f n) (hgood : f.payload = [] ∨ n = 1 ∧ f.padding = [])
    {a : DatagramStep} (ht : (datagramMachine f n).step s a = some t) : t.Inv f n := by
  cases a with
  | recvmsg i =>
      simp only [datagramMachine, h.running, Bool.false_eq_true, if_false,
        Option.map_eq_some_iff] at ht
      obtain ⟨skb, hqueue, rfl⟩ := ht
      obtain rfl := (h.queued i skb hqueue).2.1
      by_cases hempty : f.payload = []
      · exact h.recvmsg_empty hqueue hempty
      · obtain ⟨rfl, hpadding⟩ := hgood.resolve_left hempty
        exact h.recvmsg_one hqueue hempty hpadding
  | release i =>
      have hrunning : ¬s.exited = true := by
        rw [h.running]
        exact Bool.false_ne_true
      simp only [datagramMachine] at ht
      rw [if_neg hrunning] at ht
      split at ht
      next hheld =>
          obtain rfl := Option.some.inj ht
          exact h.release hheld
      next => cases ht

/-- A socket with a queued skb can read it. -/
theorem reachable_recvmsg (hreach : (datagramMachine f n).Reachable s) (hrunning : s.exited = false)
    {i : ℕ} {skb : RxSkb} (hqueue : s.queue i = some skb) :
    (datagramMachine f n).Reachable (s.recvmsg f i skb) := by
  refine hreach.step (a := .recvmsg i) trivial ?_
  simp only [datagramMachine]
  rw [if_neg (by rw [hrunning]; exact Bool.false_ne_true), hqueue]
  rfl

/-- `flush_stack` leaves one reference for each socket. -/
theorem flushStack_eq (M : MbufMem) (skb : RxSkb) (n : ℕ) :
    flushStack M skb (n + 1) =
      M.modify skb.headerMbuf fun m => { m with refcnt := m.refcnt + n } := by
  induction n with
  | zero =>
      rw [flushStack, MbufMem.modify]
      simp only [Nat.cast_zero, add_zero, Function.update_eq_self]
  | succ n ih =>
      rw [flushStack, ih, MbufMem.rteMbufRefcntUpdate, MbufMem.modify_modify]
      congr 1
      funext m
      simp only [Nat.cast_succ, add_assoc]

theorem init_inv (hn : 1 ≤ n) : (datagramMachine f n).init.Inv f n := by
  obtain ⟨n, rfl⟩ := Nat.exists_eq_add_of_le' hn
  have husers : ∀ i ∈ Finset.range (n + 1), (datagramMachine f (n + 1)).init.uses i = true := by
    intro i hi
    have hlt := Finset.mem_range.mp hi
    simp only [uses, datagramMachine, hlt, if_true, Option.isSome_some, Bool.or_true]
  have hmbuf : (datagramMachine f (n + 1)).init.mem.mbuf 0 =
      { f.mbuf with refcnt := f.mbuf.refcnt + n } := by
    simp only [datagramMachine]
    rw [flushStack_eq]
    exact MbufMem.modify_self _ _ _
  have hrefs : (datagramMachine f (n + 1)).init.mem.refcnt 0 = n + 1 := by
    rw [MbufMem.refcnt, hmbuf]
    exact add_comm _ _
  refine
    { running := rfl, returned := ?_, queued := ?_, holds := ?_, fresh := ?_
      reads := ?_, refs := ?_, puts := ?_, single := ?_, size := ?_ }
  · intro r hr
    cases hr
  · intro i skb hi
    simp only [datagramMachine] at hi
    split at hi
    next hlt => exact ⟨hlt, (Option.some.inj hi).symm, rfl⟩
    next => cases hi
  · intro i hheld
    cases hheld
  · intro _
    rw [hmbuf]
    exact ⟨⟨.inl rfl, rfl⟩, rfl⟩
  · intro i hheld
    cases hheld
  · rw [hrefs, users, Finset.filter_true_of_mem husers, Finset.card_range]
    rfl
  · unfold MbufMem.PutsOk
    rw [hrefs, if_neg (by omega)]
    simp only [datagramMachine]
    rw [flushStack_eq]
    rfl
  · rw [MbufMem.next, hmbuf]
    rfl
  · simp only [datagramMachine]
    rw [flushStack_eq]
    rfl

end DatagramState

/-! ## When every socket obtains the datagram -/

/-- **One datagram for several sockets.**  In every order of reads and releases every socket
obtains the payload exactly when the payload is empty, or there is one socket and nothing follows
the payload in the frame. -/
theorem datagram_intact_iff (f : UdpFrame) {n : ℕ} (hn : 1 ≤ n) :
    (∀ s, (datagramMachine f n).Reachable s → Intact f s) ↔
      f.payload = [] ∨ n = 1 ∧ f.padding = [] := by
  constructor
  · intro hall
    by_contra hbad
    rw [not_or, not_and_or] at hbad
    obtain ⟨hpayload, hbad⟩ := hbad
    have hinit : (datagramMachine f n).init.Inv f n := DatagramState.init_inv hn
    have hqueue : ∀ i, i < n → (datagramMachine f n).init.queue i = some f.skb :=
      fun i hi => if_pos hi
    have hfirst : (datagramMachine f n).init.queue 0 ≠ none := by
      rw [hqueue 0 hn]
      exact Option.some_ne_none _
    obtain ⟨hwindow, hbuf⟩ := hinit.fresh ⟨0, hfirst⟩
    have hreach := DatagramState.reachable_recvmsg .init hinit.running (hqueue 0 hn)
    rw [DatagramState.recvmsg_payload hwindow hpayload] at hreach
    rcases hbad with htwo | hpadding
    · have hlt : 1 < n := Nat.lt_of_le_of_ne hn (Ne.symm htwo)
      have hother : Function.update (datagramMachine f n).init.queue 0 none 1 = some f.skb := by
        rw [Function.update_of_ne Nat.one_ne_zero, hqueue 1 hlt]
      have hsecond := DatagramState.reachable_recvmsg (i := 1) hreach hinit.running hother
      have hexit := (hall _ hsecond).running
      obtain ⟨hoff, hlen, -⟩ := DatagramState.mbuf_submitted f (datagramMachine f n).init
      unfold DatagramState.recvmsg at hexit
      dsimp only at hexit
      rw [UdpFrame.copy_atPayload hoff hlen] at hexit
      cases hexit
    · have hheld : Function.update (datagramMachine f n).init.held 0 true 0 = true := by
        rw [Function.update_self]
      have hview := (hall _ hreach).reads 0 hheld
      have hall_bytes := (DatagramState.slice_submitted hbuf).symm.trans hview
      exact hpadding (List.append_right_eq_self.mp hall_bytes)
  · intro hgood s hreach
    have hinv : s.Inv f n := by
      refine (datagramMachine f n).invariant_of_step (DatagramState.init_inv hn) ?_ hreach
      intro s a t h _ hstep
      exact h.step hgood hstep
    exact hinv.intact

/-- A datagram with the two bytes of "ok", in a frame without padding. -/
def okFrame : UdpFrame where
  headroom := 128
  headers := List.replicate 34 0
  udp := List.replicate 8 0
  payload := [111, 107]
  padding := []
  name := List.replicate 16 0
  headers_length := by decide
  udp_length := rfl
  name_length := rfl
  fits := by decide

/-- A single socket. -/
theorem datagram_intact_one :
    1 ≤ 1 ∧ ∀ s, (datagramMachine okFrame 1).Reachable s → Intact okFrame s :=
  ⟨Nat.le_refl 1, (datagram_intact_iff okFrame (Nat.le_refl 1)).mpr (.inr ⟨rfl, rfl⟩)⟩

/-- **A second socket ends the service.**  Two sockets read the datagram one after the other. -/
theorem second_socket_exits :
    ∃ s, (datagramMachine okFrame 2).run [.recvmsg 0, .recvmsg 1] = some s ∧ s.exited = true ∧
      ¬ ∀ t, (datagramMachine okFrame 2).Reachable t → Intact okFrame t := by
  have hrun : ((datagramMachine okFrame 2).run [.recvmsg 0, .recvmsg 1]).map
      (fun s => s.exited) = some true := by decide +kernel
  obtain ⟨s, hs, hexited⟩ := Option.map_eq_some_iff.mp hrun
  refine ⟨s, hs, hexited, fun hall => ?_⟩
  have hrunning := (hall s (Machine.reachable_of_run _ hs)).running
  rw [hexited] at hrunning
  cases hrunning

end IpAugenblick
