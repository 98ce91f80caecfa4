/-
# The TCP write queue of a stream socket

The buffers that the client enqueues on `tx_ring` are the bytes of its stream.
`user_get_buffer` dequeues some of them into a chain and `do_tcp_sendpages` cuts the chain into
segments of at most `MAX_SKB_FRAGS` fragments.  One accumulator, `copied`, counts the bytes of
the segment being filled and is set to the bytes of the call at the end; when no segment can be
allocated it is set to zero and the rest of the chain is freed.
-/

import IpAugenblick.Lib.Machine
import IpAugenblick.Stack.Segments

namespace IpAugenblick

open Lib

/-! ## `user_get_buffer` -/

/-- `user_get_buffer` stops when the rest of the goal is below this. -/
def getBufferStep : ℤ := 1448

/-- The loop of `user_get_buffer`, with the first and the last buffer of the chain so far.  It
returns the memory, the rest of `copy`, the chain and what is left in `tx_ring`. -/
def userGetBufferLoop : MbufMem → ℤ → Option (ℕ × ℕ) → List ℕ →
    MbufMem × ℤ × Option ℕ × List ℕ
  | M, copy, chain, [] => (M, copy, chain.map Prod.fst, [])
  | M, copy, chain, mbuf :: txRing =>
      if copy < getBufferStep then (M, copy, chain.map Prod.fst, mbuf :: txRing)
      else
        let copy := copy - (M.mbuf mbuf).dataLen
        match chain with
        | none => userGetBufferLoop M copy (some (mbuf, mbuf)) txRing
        | some (first, prev) =>
            userGetBufferLoop (M.setNext prev (some mbuf)) copy (some (first, mbuf)) txRing

def userGetBuffer (M : MbufMem) (copy : ℤ) (txRing : List ℕ) :
    MbufMem × ℤ × Option ℕ × List ℕ :=
  userGetBufferLoop M copy none txRing

/-- The buffers that `user_get_buffer` dequeues. -/
def takenBufs (M : MbufMem) : ℤ → List ℕ → List ℕ
  | _, [] => []
  | copy, mbuf :: txRing =>
      if copy < getBufferStep then []
      else mbuf :: takenBufs M (copy - (M.mbuf mbuf).dataLen) txRing

section GetBuffer

variable {M M' : MbufMem} {copy : ℤ} {txRing : List ℕ}

theorem takenBufs_prefix : takenBufs M copy txRing <+: txRing := by
  induction txRing generalizing copy with
  | nil => exact List.nil_prefix
  | cons mbuf txRing ih =>
      rw [takenBufs]
      split
      · exact List.nil_prefix
      · exact List.cons_prefix_cons.mpr ⟨rfl, ih⟩

theorem takenBufs_congr (h : M'.cores = M.cores) :
    takenBufs M' copy txRing = takenBufs M copy txRing := by
  induction txRing generalizing copy with
  | nil => rfl
  | cons mbuf txRing ih => rw [takenBufs, takenBufs, MbufMem.dataLen_congr h, ih]

theorem totalLen_congr (h : M'.cores = M.cores) (ps : List ℕ) : totalLen M' ps = totalLen M ps := by
  unfold totalLen total
  simp only [MbufMem.dataLen_congr h]

/-- What `user_get_buffer` leaves: the chain of the dequeued buffers and the rest. -/
structure GotBuffers (M : MbufMem) (copy : ℤ) (txRing pre : List ℕ)
    (r : MbufMem × ℤ × Option ℕ × List ℕ) : Prop where
  copy_eq : r.2.1 = copy - totalLen M (takenBufs M copy txRing)
  rest_eq : takenBufs M copy txRing ++ r.2.2.2 = txRing
  linked : Linked r.1.next r.2.2.1 (pre ++ takenBufs M copy txRing)
  cores : r.1.cores = M.cores
  size : r.1.size = M.size
  frame : ∀ p, p ∉ pre ++ takenBufs M copy txRing → r.1.mbuf p = M.mbuf p

/-- The loop has nothing more to take. -/
theorem gotBuffers_stop {pre : List ℕ} {first : Option ℕ} (hchain : Linked M.next first pre)
    (hstop : takenBufs M copy txRing = []) :
    GotBuffers M copy txRing pre (M, copy, first, txRing) where
  copy_eq := by rw [hstop]; exact (sub_zero copy).symm
  rest_eq := by rw [hstop]; rfl
  linked := by rw [hstop, List.append_nil]; exact hchain
  cores := rfl
  size := rfl
  frame _ _ := rfl

/-- One more buffer, hung behind the last one. -/
theorem GotBuffers.cons {pre : List ℕ} {mbuf : ℕ} {r : MbufMem × ℤ × Option ℕ × List ℕ}
    (hgo : ¬ copy < getBufferStep) (hcores : M'.cores = M.cores) (hsize : M'.size = M.size)
    (hframe : ∀ p, p ∉ pre ++ [mbuf] → M'.mbuf p = M.mbuf p)
    (h : GotBuffers M' (copy - (M.mbuf mbuf).dataLen) txRing (pre ++ [mbuf]) r) :
    GotBuffers M copy (mbuf :: txRing) pre r := by
  have htaken : takenBufs M copy (mbuf :: txRing) =
      mbuf :: takenBufs M' (copy - (M.mbuf mbuf).dataLen) txRing := by
    rw [takenBufs, if_neg hgo, takenBufs_congr hcores]
  have hsplit : pre ++ takenBufs M copy (mbuf :: txRing) =
      (pre ++ [mbuf]) ++ takenBufs M' (copy - (M.mbuf mbuf).dataLen) txRing := by
    rw [htaken, List.append_assoc, List.singleton_append]
  constructor
  · rw [h.copy_eq, htaken, totalLen_congr hcores, totalLen, totalLen, total_cons]
    push_cast
    ring
  · rw [htaken, List.cons_append, h.rest_eq]
  · rw [hsplit]
    exact h.linked
  · rw [h.cores, hcores]
  · rw [h.size, hsize]
  · intro p hp
    rw [hsplit] at hp
    rw [h.frame p hp, hframe p fun hmem => hp (List.mem_append_left _ hmem)]

/-- The loop behind a chain whose last buffer is `prev`. -/
theorem gotBuffers_loop {pre : List ℕ} {first prev : ℕ}
    (hchain : Linked M.next (some first) (pre ++ [prev]))
    (hnodup : (pre ++ [prev] ++ txRing).Nodup) (hnext : ∀ p ∈ txRing, M.next p = none) :
    GotBuffers M copy txRing (pre ++ [prev])
      (userGetBufferLoop M copy (some (first, prev)) txRing) := by
  induction txRing generalizing M copy pre prev with
  | nil => exact gotBuffers_stop hchain rfl
  | cons mbuf txRing ih =>
      rw [userGetBufferLoop]
      split
      next hlow => exact gotBuffers_stop hchain (if_pos hlow)
      next hgo =>
          have hprev : prev ∉ mbuf :: txRing := by
            intro hmem
            exact (List.nodup_append.mp hnodup).2.2 prev (by simp) prev hmem rfl
          have hmbuf : M.next mbuf = none := hnext mbuf (List.mem_cons_self)
          -- the chain with `mbuf` behind `prev`
          have hlinked : Linked (M.setNext prev (some mbuf)).next (some first)
              (pre ++ [prev] ++ [mbuf]) := by
            rw [MbufMem.next_setNext, List.append_assoc, List.singleton_append]
            have hsingle : Linked M.next (some mbuf) [mbuf] := ⟨rfl, by rw [hmbuf]; rfl⟩
            exact hchain.append hsingle fun hmem =>
              hprev (List.mem_singleton.mp hmem ▸ List.mem_cons_self)
          have hrest : ∀ p ∈ txRing, (M.setNext prev (some mbuf)).next p = none := by
            intro p hp
            rw [MbufMem.next_setNext, Function.update_of_ne]
            · exact hnext p (List.mem_cons_of_mem _ hp)
            · rintro rfl
              exact hprev (List.mem_cons_of_mem _ hp)
          refine GotBuffers.cons hgo (M.cores_setNext prev _) rfl ?_ (ih hlinked ?_ hrest)
          · intro p hp
            have hne : p ≠ prev := by
              rintro rfl
              exact hp (by simp)
            exact M.modify_of_ne _ hne
          · rw [List.append_assoc _ [mbuf], List.singleton_append]
            exact hnodup

/-- **What `user_get_buffer` does.** -/
theorem userGetBuffer_spec (hnodup : txRing.Nodup) (hnext : ∀ p ∈ txRing, M.next p = none) :
    GotBuffers M copy txRing [] (userGetBuffer M copy txRing) := by
  cases txRing with
  | nil => exact gotBuffers_stop rfl rfl
  | cons mbuf txRing =>
      rw [userGetBuffer, userGetBufferLoop]
      split
      next hlow => exact gotBuffers_stop rfl (if_pos hlow)
      next hgo =>
          have hmbuf : M.next mbuf = none := hnext mbuf (List.mem_cons_self)
          have hsingle : Linked M.next (some mbuf) ([] ++ [mbuf]) := ⟨rfl, by rw [hmbuf]; rfl⟩
          refine GotBuffers.cons hgo rfl rfl (fun _ _ => rfl) ?_
          exact gotBuffers_loop hsingle hnodup fun p hp => hnext p (List.mem_cons_of_mem _ hp)

end GetBuffer

/-! ## The loop of `do_tcp_sendpages` -/

/-- What the loop leaves in `copied`, when `copy` bytes were dequeued. -/
def sendpagesCopied (copy : ℤ) : ℕ → SendState → Option ℕ → ℤ
  | 0, _, _ => copy
  | _ + 1, _, none => copy
  | fuel + 1, s, some mbuf =>
      match s.alloc with
      | none => 0
      | some (skb, s) => sendpagesCopied copy fuel (s.addMbuf skb mbuf) (s.mem.next mbuf)

namespace SendState

/-- The buffers `pre` have been added, the last of them to `skb`. -/
structure Fills (M₀ : MbufMem) (seq₀ : ℕ) (pre : List ℕ) (s : SendState) (skb : Skb) : Prop where
  pages : s.queue.flatMap Skb.pages ++ skb.pages = pre
  queued : ∀ k ∈ s.queue, Whole M₀ k.shinfo.frags
  whole : Whole M₀ skb.shinfo.frags
  copied : s.copied = totalLen M₀ skb.pages
  seq : s.writeSeq = seqAdd seq₀ (totalLen M₀ (s.queue.flatMap Skb.pages))
  cores : s.mem.cores = M₀.cores

/-- The segment being filled, or an empty one. -/
def current (s : SendState) : Skb := s.skb.getD (skStreamAllocSkb 0)

/-- How many more buffers the allocations are good for. -/
def room (s : SendState) : ℕ :=
  maxSkbFrags * s.headers.length +
    match s.skb with
    | none => 0
    | some skb => maxSkbFrags - skb.pages.length

variable {M₀ : MbufMem} {seq₀ mbuf : ℕ} {pre : List ℕ} {s s' : SendState} {skb : Skb}

/-- What an allocation returns: the segment being filled, or an empty one. -/
theorem alloc_cases (halloc : s.alloc = some (skb, s')) :
    s.skb = some skb ∧ s' = s ∨
      ∃ header headers, s.skb = none ∧ s.headers = header :: headers ∧
        skb = skStreamAllocSkb header ∧ s' = { s with headers } := by
  unfold SendState.alloc at halloc
  cases hskb : s.skb with
  | some current =>
      rw [hskb] at halloc
      cases halloc
      exact .inl ⟨rfl, rfl⟩
  | none =>
      rw [hskb] at halloc
      cases hheaders : s.headers with
      | nil =>
          rw [hheaders] at halloc
          cases halloc
      | cons header headers =>
          rw [hheaders] at halloc
          cases halloc
          exact .inr ⟨header, headers, rfl, rfl, rfl, rfl⟩

theorem mem_alloc (halloc : s.alloc = some (skb, s')) : s'.mem = s.mem := by
  obtain ⟨-, rfl⟩ | ⟨header, headers, -, -, -, rfl⟩ := alloc_cases halloc <;> rfl

theorem Fills.alloc (h : s.Fills M₀ seq₀ pre s.current) (halloc : s.alloc = some (skb, s')) :
    s'.Fills M₀ seq₀ pre skb := by
  unfold current at h
  obtain ⟨hskb, rfl⟩ | ⟨header, headers, hskb, -, rfl, rfl⟩ := alloc_cases halloc
  · rw [hskb] at h
    exact h
  · rw [hskb] at h
    exact ⟨h.pages, h.queued, h.whole, h.copied, h.seq, h.cores⟩

/-- A new buffer is a whole fragment of the segment. -/
theorem Fills.filledSkb (h : s.Fills M₀ seq₀ pre skb) (mbuf : ℕ) :
    Whole M₀ (s.filledSkb skb mbuf).shinfo.frags ∧
      s.copied + (s.mem.mbuf mbuf).dataLen = totalLen M₀ (s.filledSkb skb mbuf).pages := by
  have hlen : (s.mem.mbuf mbuf).dataLen = (M₀.mbuf mbuf).dataLen :=
    MbufMem.dataLen_congr h.cores mbuf
  constructor
  · intro f hf
    rcases List.mem_append.mp hf with hold | hnew
    · exact h.whole f hold
    · rw [List.mem_singleton.mp hnew, hlen]
      rfl
  · rw [pages_filledSkb, h.copied, hlen]
    simp only [totalLen, total_append, total_cons, total_nil, Nat.add_zero]

theorem seqAdd_seqAdd (seq a b : ℕ) : seqAdd (seqAdd seq a) b = seqAdd seq (a + b) := by
  unfold seqAdd
  omega

/-- One round of the loop. -/
theorem Fills.addMbuf (h : s.Fills M₀ seq₀ pre skb) :
    (s.addMbuf skb mbuf).Fills M₀ seq₀ (pre ++ [mbuf]) (s.addMbuf skb mbuf).current := by
  obtain ⟨hwhole, htotal⟩ := h.filledSkb mbuf
  have hpages : s.queue.flatMap Skb.pages ++ (s.filledSkb skb mbuf).pages = pre ++ [mbuf] := by
    rw [pages_filledSkb, ← List.append_assoc, h.pages]
  have hcores : (s.mem.setNext mbuf none).cores = M₀.cores := by
    rw [MbufMem.cores_setNext, h.cores]
  unfold SendState.addMbuf
  dsimp only
  split
  next =>
      -- the segment joins the queue
      refine ⟨?_, ?_, nofun, rfl, ?_, hcores⟩
      · simp only [entail, List.flatMap_append, List.flatMap_singleton]
        exact (List.append_nil _).trans hpages
      · intro k hk
        rcases List.mem_append.mp hk with hold | hnew
        · exact h.queued k hold
        · rw [List.mem_singleton.mp hnew]
          exact hwhole
      · simp only [entail, List.flatMap_append, List.flatMap_singleton]
        rw [h.seq, seqAdd_seqAdd, htotal]
        simp only [totalLen, total_append]
        rfl
  next => exact ⟨hpages, h.queued, hwhole, htotal, h.seq, hcores⟩

/-- With room left an allocation succeeds. -/
theorem alloc_of_room (hroom : 0 < s.room) : ∃ skb s', s.alloc = some (skb, s') := by
  unfold room at hroom
  unfold SendState.alloc
  cases hskb : s.skb with
  | some skb => exact ⟨skb, s, rfl⟩
  | none =>
      cases hheaders : s.headers with
      | nil =>
          rw [hskb, hheaders] at hroom
          cases hroom
      | cons header headers => exact ⟨_, _, rfl⟩

/-- A segment that stays open has room for a fragment, and the chain goes on. -/
theorem open_addMbuf {k : Skb} (hk : (s.addMbuf skb mbuf).skb = some k) :
    k.pages.length < maxSkbFrags ∧ s.mem.next mbuf ≠ none := by
  unfold SendState.addMbuf at hk
  dsimp only at hk
  split at hk
  next => cases hk
  next hopen =>
      cases hk
      rw [not_or, Nat.not_le] at hopen
      rw [Skb.pages, List.length_map]
      exact hopen

/-- A buffer that is not the last takes one place. -/
theorem room_addMbuf (halloc : s.alloc = some (skb, s'))
    (hopen : ∀ k, s.skb = some k → k.pages.length < maxSkbFrags)
    (hnext : s'.mem.next mbuf ≠ none) : (s'.addMbuf skb mbuf).room + 1 = s.room := by
  have hplaces : maxSkbFrags * s'.headers.length + (maxSkbFrags - skb.pages.length) = s.room ∧
      skb.pages.length < maxSkbFrags := by
    unfold room
    obtain ⟨hskb, rfl⟩ | ⟨header, headers, hskb, hheaders, rfl, rfl⟩ := alloc_cases halloc
    · rw [hskb]
      exact ⟨rfl, hopen _ hskb⟩
    · rw [hskb, hheaders, List.length_cons, Nat.mul_succ]
      exact ⟨rfl, (by decide : 0 < maxSkbFrags)⟩
  obtain ⟨hroom, hlt⟩ := hplaces
  rw [← hroom]
  unfold SendState.addMbuf room
  dsimp only
  split
  next hfull =>
      have hlast := hfull.resolve_right hnext
      rw [List.length_append, List.length_singleton] at hlast
      have hpages : skb.pages.length = skb.shinfo.frags.length := List.length_map _
      simp only [entail]
      omega
  next hopen =>
      have hpages : skb.pages.length = skb.shinfo.frags.length := List.length_map _
      simp only [Skb.pages, List.map_append, List.length_append, List.length_map,
        List.length_singleton, List.map_cons, List.map_nil]
      omega

theorem mem_addMbuf : (s.addMbuf skb mbuf).mem = s.mem.setNext mbuf none := by
  unfold SendState.addMbuf
  dsimp only
  split <;> rfl

/-- Without the link of its first buffer the rest of a chain is as it was. -/
theorem linked_unlink {M : MbufMem} {ids : List ℕ}
    (hlinked : Linked M.next (some mbuf) (mbuf :: ids)) :
    Linked (M.setNext mbuf none).next (M.next mbuf) ids := by
  rw [MbufMem.next_setNext]
  refine hlinked.2.congr fun x hx => Function.update_of_ne ?_ _ _
  rintro rfl
  exact (List.nodup_cons.mp hlinked.nodup).1 hx

/-- **The loop sends the whole chain** when the allocations suffice, by induction on the chain
that is left. -/
theorem Fills.sendpagesLoop {ids : List ℕ} {p : Option ℕ} {fuel : ℕ}
    (h : s.Fills M₀ seq₀ pre s.current) (hlinked : Linked s.mem.next p ids)
    (hfuel : ids.length ≤ fuel) (hroom : ids.length ≤ s.room)
    (hopen : ∀ k, s.skb = some k → k.pages.length < maxSkbFrags)
    (hend : ids = [] → s.skb = none) (copy : ℤ) :
    (SendState.sendpagesLoop fuel s p).Fills M₀ seq₀ (pre ++ ids) (skStreamAllocSkb 0) ∧
      sendpagesCopied copy fuel s p = copy := by
  induction ids generalizing fuel s p pre with
  | nil =>
      obtain rfl := Linked.nil_iff.mp hlinked
      have hsame : SendState.sendpagesLoop fuel s none = s := by cases fuel <;> rfl
      have hcopied : sendpagesCopied copy fuel s none = copy := by cases fuel <;> rfl
      rw [current, hend rfl] at h
      rw [hsame, List.append_nil]
      exact ⟨h, hcopied⟩
  | cons mbuf ids ih =>
      have hnodup := hlinked.nodup
      obtain ⟨rfl, htail⟩ := hlinked
      cases fuel with
      | zero => cases hfuel
      | succ fuel =>
          obtain ⟨skb, s', halloc⟩ := alloc_of_room (Nat.lt_of_lt_of_le (Nat.succ_pos _) hroom)
          have hfills := h.alloc halloc
          have hmem := mem_alloc halloc
          rw [SendState.sendpagesLoop, sendpagesCopied, halloc]
          dsimp only
          have hlinked' : Linked (s'.addMbuf skb mbuf).mem.next (s'.mem.next mbuf) ids := by
            rw [mem_addMbuf, hmem]
            exact linked_unlink ⟨rfl, htail⟩
          have hroom' : ids.length ≤ (s'.addMbuf skb mbuf).room := by
            cases ids with
            | nil => exact Nat.zero_le _
            | cons q ids =>
                have hnext : s'.mem.next mbuf ≠ none := by
                  rw [hmem, htail.1]
                  exact Option.some_ne_none q
                have hleft := room_addMbuf halloc hopen hnext
                simp only [List.length_cons] at hroom ⊢
                omega
          have hend' : ids = [] → (s'.addMbuf skb mbuf).skb = none := by
            rintro rfl
            cases hskb : (s'.addMbuf skb mbuf).skb with
            | none => rfl
            | some k =>
                have hnext := (open_addMbuf hskb).2
                rw [hmem] at hnext
                exact absurd htail hnext
          obtain ⟨hdone, hcopied⟩ := ih hfills.addMbuf hlinked'
            (Nat.le_of_succ_le_succ hfuel) hroom' (fun k hk => (open_addMbuf hk).1) hend'
          rw [List.append_assoc, List.singleton_append] at hdone
          exact ⟨hdone, hcopied⟩

/-- Whether the allocations suffice or not, only the buffers of the chain change. -/
theorem frame_sendpagesLoop {ids : List ℕ} {p : Option ℕ} (fuel : ℕ)
    (hlinked : Linked s.mem.next p ids) (hfit : ids.length ≤ s.mem.size) :
    (sendpagesLoop fuel s p).mem.size = s.mem.size ∧
      ∀ q, q ∉ ids → (sendpagesLoop fuel s p).mem.mbuf q = s.mem.mbuf q := by
  induction ids generalizing fuel s p with
  | nil =>
      obtain rfl := Linked.nil_iff.mp hlinked
      cases fuel <;> exact ⟨rfl, fun _ _ => rfl⟩
  | cons mbuf ids ih =>
      obtain ⟨rfl, htail⟩ := hlinked
      cases fuel with
      | zero => exact ⟨rfl, fun _ _ => rfl⟩
      | succ fuel =>
          rw [sendpagesLoop]
          cases halloc : s.alloc with
          | none =>
              have hlinked : Linked s.mem.next (some mbuf) (mbuf :: ids) := ⟨rfl, htail⟩
              dsimp only
              rw [MbufMem.rtePktmbufFree_eq_foldl _ hlinked hfit]
              exact ⟨MbufMem.size_foldl_freeSeg _ _,
                fun q hq => MbufMem.mbuf_foldl_freeSeg_of_not_mem _ hq⟩
          | some pair =>
              obtain ⟨skb, s'⟩ := pair
              have hmem := mem_alloc halloc
              have hlinked' : Linked (s'.addMbuf skb mbuf).mem.next (s'.mem.next mbuf) ids := by
                rw [mem_addMbuf, hmem]
                exact linked_unlink ⟨rfl, htail⟩
              have hsame : (s'.addMbuf skb mbuf).mem.size = s.mem.size := by
                rw [mem_addMbuf, hmem]
                rfl
              obtain ⟨hsize, hframe⟩ := ih fuel hlinked' (by
                rw [hsame]
                exact Nat.le_of_succ_le hfit)
              refine ⟨hsize.trans hsame, fun q hq => ?_⟩
              rw [List.mem_cons, not_or] at hq
              dsimp only
              rw [hframe q hq.2, mem_addMbuf, hmem]
              exact s.mem.modify_of_ne _ hq.1

end SendState

/-! ## Calls of `do_tcp_sendpages` on one socket -/

/-- What a call meets: an error of `sk_stream_wait_connect`, the answers of `tcp_send_mss`, a
pending error, whether `sk_socket` is set, and the header buffers that `sk_stream_alloc_skb`
returns until it fails. -/
structure SendpagesCall where
  connectError : Option ℤ := none
  mssNow : ℕ
  sizeGoal : ℕ
  error : Option ℤ := none
  hasSocket : Bool := true
  headers : List ℕ

structure SendpagesRecord where
  returned : Except ℤ ℤ
  queued : ℕ

/-- The transmit side of a stream socket.  What was enqueued and what was appended are a record of
the bytes, by which the ring and the write queue can be compared. -/
structure StreamState where
  mem : MbufMem
  txRing : List ℕ
  writeSeq : ℕ
  /-- The data of every buffer that was enqueued on `tx_ring`. -/
  enqueued : List (List UInt8)
  /-- The bytes that were appended to the write queue. -/
  appended : List UInt8
  calls : List SendpagesRecord

namespace StreamState

/-- A call gets as far as `user_get_buffer`. -/
def Admitted (c : SendpagesCall) : Prop :=
  c.connectError = none ∧ c.mssNow ≠ 0 ∧ c.sizeGoal ≠ 0 ∧ c.error = none ∧ c.hasSocket = true

instance (c : SendpagesCall) : Decidable (Admitted c) :=
  inferInstanceAs (Decidable (_ ∧ _))

/-- `do_tcp_sendpages` behind `user_get_buffer`: the new state and the returned count. -/
def sendChain (s : StreamState) (c : SendpagesCall) : StreamState × ℤ :=
  let (mem, copy, first, txRing) := userGetBuffer s.mem c.sizeGoal s.txRing
  match first with
  | none => (s, 0)
  | some _ =>
      let start : SendState :=
        { mem, headers := c.headers, writeSeq := s.writeSeq, queue := [], skb := none, copied := 0 }
      let sent := doTcpSendpages mem c.headers s.writeSeq first
      ({ s with
          mem := sent.mem
          txRing
          writeSeq := sent.writeSeq
          appended := s.appended ++
            sent.queue.flatMap fun skb => fragBytes sent.mem skb.shinfo.frags },
        sendpagesCopied (c.sizeGoal - copy) mem.size start first)

/-- `do_tcp_sendpages`. -/
def tcpSendpages (s : StreamState) (c : SendpagesCall) : StreamState × Except ℤ ℤ :=
  match c.connectError with
  | some err => (s, .error err)
  | none =>
      if c.mssNow = 0 ∨ c.sizeGoal = 0 then (s, .ok 0)
      else
        match c.error with
        | some err => (s, .error err)
        | none =>
            if c.hasSocket then
              let (s, copied) := s.sendChain c
              (s, .ok copied)
            else (s, .ok 0)

def call (s : StreamState) (c : SendpagesCall) : StreamState :=
  let (t, returned) := s.tcpSendpages c
  { t with calls := ⟨returned, t.appended.length - s.appended.length⟩ :: t.calls }

/-- The buffers that a call dequeues. -/
def taken (s : StreamState) (c : SendpagesCall) : List ℕ :=
  if Admitted c then takenBufs s.mem c.sizeGoal s.txRing else []

/-- A buffer with its data length set joins `tx_ring`. -/
def enqueue (s : StreamState) (mem : MbufMem) (mbuf : ℕ) : StreamState :=
  { s with
    mem
    txRing := s.txRing ++ [mbuf]
    enqueued := s.enqueued ++ [(mem.mbuf mbuf).data] }

end StreamState

inductive StreamStep
  | /-- `ipaugenblick_send` enqueues a buffer. -/
    send (mbuf length : ℕ)
  | /-- `ipaugenblick_send_bulk` enqueues a buffer, whose link it leaves alone. -/
    sendBulk (mbuf length : ℕ)
  | /-- A call of `do_tcp_sendpages`. -/
    sendpages (c : SendpagesCall)
  | /-- A buffer that is not in `tx_ring` changes. -/
    other (mbuf : ℕ) (contents : Mbuf)

/-- One stream socket, from any contents of the buffers and any sequence number.  Other users of
the pool may write to any buffer that is not in `tx_ring`. -/
def streamMachine (mem : MbufMem) (writeSeq : ℕ) : Machine StreamState StreamStep where
  init := { mem, txRing := [], writeSeq := seqAdd writeSeq 0, enqueued := [], appended := []
            calls := [] }
  step s
    | .send mbuf length =>
        if mbuf < s.mem.size ∧ mbuf ∉ s.txRing then
          some (s.enqueue ((s.mem.setDataLen mbuf length).setNext mbuf none) mbuf)
        else none
    | .sendBulk mbuf length =>
        if mbuf < s.mem.size ∧ mbuf ∉ s.txRing then
          some (s.enqueue (s.mem.setDataLen mbuf length) mbuf)
        else none
    | .sendpages c => some (s.call c)
    | .other mbuf contents =>
        if mbuf ∉ s.txRing then some { s with mem := s.mem.modify mbuf fun _ => contents }
        else none

/-- The stream is exact: what was appended to the write queue is the data of the enqueued buffers
up to those still in `tx_ring`, `write_seq` has advanced by as many bytes, and every call has
returned what it queued. -/
structure StreamState.Exact (writeSeq : ℕ) (s : StreamState) : Prop where
  bytes : ∃ pre, s.enqueued = pre ++ s.txRing.map (fun p => (s.mem.mbuf p).data) ∧
    s.appended = pre.flatten
  seq : s.writeSeq = seqAdd writeSeq s.appended.length
  returned : ∀ r ∈ s.calls,
    match r.returned with
    | .ok copied => copied = r.queued
    | .error _ => r.queued = 0

/-- The guard of the runs in which every allocation of a call succeeds and the buffers of
`ipaugenblick_send_bulk` are single ones. -/
def streamOk (s : StreamState) : StreamStep → Prop
  | .sendBulk mbuf _ => s.mem.next mbuf = none
  | .sendpages c => (s.taken c).length ≤ maxSkbFrags * c.headers.length
  | _ => True

namespace StreamState

/-- `tx_ring` holds distinct single buffers. -/
structure RingOk (s : StreamState) : Prop where
  nodup : s.txRing.Nodup
  inRange : ∀ p ∈ s.txRing, p < s.mem.size
  single : ∀ p ∈ s.txRing, s.mem.next p = none

/-- The stream is exact, and so is `tx_ring`. -/
structure Inv (writeSeq : ℕ) (s : StreamState) : Prop extends s.Exact writeSeq, s.RingOk

variable {writeSeq : ℕ} {s t : StreamState} {c : SendpagesCall}

theorem fragBytes_congr {M M' : MbufMem} (h : M'.cores = M.cores) (frags : List Frag) :
    fragBytes M' frags = fragBytes M frags := by
  unfold fragBytes
  apply List.flatMap_congr
  intro f _
  have hwindow :=
    congrArg (fun m : Mbuf => m.slice (m.dataOff + f.pageOffset) f.size) (congrFun h f.page)
  exact hwindow

/-- The bytes of whole segments are the data of their buffers. -/
theorem flatMap_fragBytes {M₀ M : MbufMem} {queue : List Skb} (hcores : M.cores = M₀.cores)
    (hwhole : ∀ k ∈ queue, Whole M₀ k.shinfo.frags) :
    queue.flatMap (fun skb => fragBytes M skb.shinfo.frags) =
      (queue.flatMap Skb.pages).flatMap fun p => (M₀.mbuf p).data := by
  rw [List.flatMap_assoc]
  apply List.flatMap_congr
  intro k hk
  rw [fragBytes_congr hcores, (hwhole k hk).fragBytes_eq]
  rfl

/-- A call dequeues `ids` and leaves the rest of `tx_ring` alone. -/
structure Takes (s : StreamState) (ids : List ℕ) (t : StreamState) : Prop where
  ring : ids ++ t.txRing = s.txRing
  frame : ∀ p ∈ t.txRing, t.mem.mbuf p = s.mem.mbuf p
  size : t.mem.size = s.mem.size
  enqueued : t.enqueued = s.enqueued
  calls : t.calls = s.calls

/-- What it does when the allocations suffice. -/
structure Sends (s : StreamState) (ids : List ℕ) (t : StreamState) : Prop extends
    Takes s ids t where
  appended : t.appended = s.appended ++ ids.flatMap fun p => (s.mem.mbuf p).data
  seq : t.writeSeq = seqAdd s.writeSeq (totalLen s.mem ids)

theorem takes_nothing : Takes s [] s := ⟨rfl, fun _ _ => rfl, rfl, rfl, rfl⟩

theorem sends_nothing (h : s.writeSeq < 2 ^ 32) : Sends s [] s where
  toTakes := takes_nothing
  appended := (List.append_nil _).symm
  seq := (Nat.mod_eq_of_lt h).symm

theorem Inv.writeSeq_lt (h : s.Inv writeSeq) : s.writeSeq < 2 ^ 32 := by
  rw [h.seq]
  exact Nat.mod_lt _ (by decide)

theorem RingOk.takes {ids : List ℕ} (h : s.RingOk) (htakes : Takes s ids t) : t.RingOk := by
  have hsub : ∀ p ∈ t.txRing, p ∈ s.txRing := by
    rw [← htakes.ring]
    exact fun p hp => List.mem_append_right _ hp
  constructor
  · have hnodup := h.nodup
    rw [← htakes.ring] at hnodup
    exact (List.nodup_append.mp hnodup).2.1
  · intro p hp
    rw [htakes.size]
    exact h.inRange p (hsub p hp)
  · intro p hp
    rw [MbufMem.next, htakes.frame p hp]
    exact h.single p (hsub p hp)

/-- The state of `do_tcp_sendpages` before its loop. -/
def start (s : StreamState) (c : SendpagesCall) (mem : MbufMem) : SendState :=
  { mem, headers := c.headers, writeSeq := s.writeSeq, queue := [], skb := none, copied := 0 }

/-- The state of `do_tcp_sendpages` behind its loop over the chain `first`. -/
def sent (s : StreamState) (c : SendpagesCall) (mem : MbufMem) (first : ℕ) : SendState :=
  SendState.sendpagesLoop mem.size (s.start c mem) (some first)

/-- A call runs its loop over the chain `first` of what it dequeues, in the memory `mem`. -/
structure RunsLoop (s : StreamState) (c : SendpagesCall) (ids : List ℕ) (mem : MbufMem)
    (first : ℕ) (txRing : List ℕ) : Prop where
  linked : Linked mem.next (some first) ids
  fit : ids.length ≤ mem.size
  cores : mem.cores = s.mem.cores
  size : mem.size = s.mem.size
  frame : ∀ p, p ∉ ids → mem.mbuf p = s.mem.mbuf p
  ring : ids ++ txRing = s.txRing
  state : (s.sendChain c).1 =
    { s with
      mem := (s.sent c mem first).mem
      txRing
      writeSeq := (s.sent c mem first).writeSeq
      appended := s.appended ++ (s.sent c mem first).queue.flatMap fun skb =>
        fragBytes (s.sent c mem first).mem skb.shinfo.frags }
  copied : (s.sendChain c).2 =
    sendpagesCopied (totalLen s.mem ids) mem.size (s.start c mem) (some first)

/-- A call dequeues nothing or runs its loop. -/
theorem RingOk.sendChain_cases (h : s.RingOk) (c : SendpagesCall) :
    takenBufs s.mem c.sizeGoal s.txRing = [] ∧ s.sendChain c = (s, 0) ∨
      ∃ mem first txRing,
        RunsLoop s c (takenBufs s.mem c.sizeGoal s.txRing) mem first txRing := by
  have hsub : takenBufs s.mem c.sizeGoal s.txRing <+: s.txRing := takenBufs_prefix
  have hgot : GotBuffers s.mem c.sizeGoal s.txRing [] (userGetBuffer s.mem c.sizeGoal s.txRing) :=
    userGetBuffer_spec h.nodup h.single
  obtain ⟨hcopy, hrest, hlinked, hcores, hsize, hframe⟩ := hgot
  cases hget : userGetBuffer s.mem c.sizeGoal s.txRing with
  | mk mem rest =>
  obtain ⟨copy, first, txRing⟩ := rest
  rw [hget] at hcopy hrest hlinked hcores hsize hframe
  dsimp only at hcopy hrest hlinked hcores hsize hframe
  rw [List.nil_append] at hlinked hframe
  cases first with
  | none =>
      refine .inl ⟨Linked.none_iff.mp hlinked, ?_⟩
      unfold StreamState.sendChain
      rw [hget]
  | some first =>
      have hfit : (takenBufs s.mem c.sizeGoal s.txRing).length ≤ mem.size := by
        rw [hsize]
        refine MbufMem.length_le_size hlinked.nodup fun p hp => ?_
        exact h.inRange p (hsub.subset hp)
      have hbytes : (c.sizeGoal : ℤ) - copy =
          totalLen s.mem (takenBufs s.mem c.sizeGoal s.txRing) := by
        rw [hcopy]
        exact sub_sub_cancel _ _
      refine .inr ⟨mem, first, txRing, hlinked, hfit, hcores, hsize, hframe, hrest, ?_, ?_⟩
      · unfold StreamState.sendChain
        rw [hget]
        rfl
      · unfold StreamState.sendChain
        rw [hget, ← hbytes]
        rfl

/-- **A call**, whether its allocations suffice or not. -/
theorem RingOk.sendChain (h : s.RingOk) (c : SendpagesCall) :
    Takes s (takenBufs s.mem c.sizeGoal s.txRing) (s.sendChain c).1 := by
  obtain ⟨hnone, heq⟩ | ⟨mem, first, txRing, hruns⟩ := h.sendChain_cases c
  · rw [hnone, heq]
    exact takes_nothing
  · obtain ⟨hsent, hkept⟩ := SendState.frame_sendpagesLoop mem.size
      (show Linked (s.start c mem).mem.next (some first) _ from hruns.linked) hruns.fit
    rw [hruns.state]
    refine ⟨hruns.ring, fun p hp => ?_, hsent.trans hruns.size, rfl, rfl⟩
    have hp' : p ∉ takenBufs s.mem c.sizeGoal s.txRing := by
      intro hmem
      have hnodup := h.nodup
      rw [← hruns.ring] at hnodup
      exact (List.nodup_append.mp hnodup).2.2 p hmem p hp rfl
    exact (hkept p hp').trans (hruns.frame p hp')

/-- The whole chain is queued when the allocations suffice. -/
theorem RunsLoop.fills {ids : List ℕ} {mem : MbufMem} {first : ℕ} {txRing : List ℕ}
    (h : RunsLoop s c ids mem first txRing) (hseq : s.writeSeq < 2 ^ 32)
    (hroom : ids.length ≤ maxSkbFrags * c.headers.length) :
    (s.sent c mem first).Fills mem s.writeSeq ids (skStreamAllocSkb 0) ∧
      (s.sendChain c).2 = totalLen s.mem ids := by
  have hstart : (s.start c mem).Fills mem s.writeSeq [] (s.start c mem).current :=
    ⟨rfl, nofun, nofun, rfl, (Nat.mod_eq_of_lt hseq).symm, rfl⟩
  obtain ⟨hfills, hcopied⟩ := hstart.sendpagesLoop h.linked h.fit hroom nofun (fun _ => rfl)
    (totalLen s.mem ids)
  exact ⟨hfills, h.copied.trans hcopied⟩

/-- **A call whose allocations suffice.** -/
theorem Inv.sendChain (h : s.Inv writeSeq)
    (hroom : (takenBufs s.mem c.sizeGoal s.txRing).length ≤ maxSkbFrags * c.headers.length) :
    Sends s (takenBufs s.mem c.sizeGoal s.txRing) (s.sendChain c).1 ∧
      (s.sendChain c).2 = totalLen s.mem (takenBufs s.mem c.sizeGoal s.txRing) := by
  have htakes := h.toRingOk.sendChain c
  obtain ⟨hnone, heq⟩ | ⟨mem, first, txRing, hruns⟩ := h.toRingOk.sendChain_cases c
  · rw [hnone, heq]
    exact ⟨sends_nothing h.writeSeq_lt, rfl⟩
  · obtain ⟨hfills, hcopied⟩ := hruns.fills h.writeSeq_lt hroom
    have hpages := (List.append_nil _).symm.trans hfills.pages
    have hdata : (fun p => (mem.mbuf p).data) = fun p => (s.mem.mbuf p).data :=
      funext (MbufMem.data_congr hruns.cores)
    refine ⟨{ htakes with appended := ?_, seq := ?_ }, hcopied⟩
    · rw [hruns.state]
      dsimp only
      rw [flatMap_fragBytes hfills.cores hfills.queued, hpages, hdata]
    · rw [hruns.state]
      dsimp only
      rw [hfills.seq, hpages, totalLen_congr hruns.cores]

theorem tcpSendpages_of_admitted (hc : Admitted c) :
    s.tcpSendpages c = ((s.sendChain c).1, .ok (s.sendChain c).2) := by
  obtain ⟨hconnect, hmss, hgoal, herror, hsocket⟩ := hc
  unfold StreamState.tcpSendpages
  rw [hconnect]
  dsimp only
  rw [if_neg (not_or.mpr ⟨hmss, hgoal⟩), herror]
  dsimp only
  rw [if_pos hsocket]

/-- A call that is turned away earlier. -/
theorem tcpSendpages_of_not_admitted (hc : ¬ Admitted c) :
    s.tcpSendpages c = (s, .ok 0) ∨ ∃ err, s.tcpSendpages c = (s, .error err) := by
  unfold StreamState.tcpSendpages
  split
  next err _ => exact .inr ⟨err, rfl⟩
  next hconnect =>
      split
      next => exact .inl rfl
      next hzero =>
          split
          next err _ => exact .inr ⟨err, rfl⟩
          next herror =>
              rw [not_or] at hzero
              split
              next hsocket => exact absurd ⟨hconnect, hzero.1, hzero.2, herror, hsocket⟩ hc
              next => exact .inl rfl

/-- A call, whether it gets as far as `user_get_buffer` or not. -/
theorem Inv.tcpSendpages (h : s.Inv writeSeq)
    (hroom : (s.taken c).length ≤ maxSkbFrags * c.headers.length) :
    Sends s (s.taken c) (s.tcpSendpages c).1 ∧
      match (s.tcpSendpages c).2 with
      | .ok copied => copied = totalLen s.mem (s.taken c)
      | .error _ => s.taken c = [] := by
  unfold taken at hroom ⊢
  split at hroom
  next hc =>
      rw [if_pos hc, tcpSendpages_of_admitted hc]
      exact h.sendChain hroom
  next hc =>
      rw [if_neg hc]
      have hnothing := sends_nothing h.writeSeq_lt
      rcases tcpSendpages_of_not_admitted (s := s) hc with hzero | ⟨err, herror⟩
      · rw [hzero]
        exact ⟨hnothing, rfl⟩
      · rw [herror]
        exact ⟨hnothing, rfl⟩

theorem length_flatMap_data (M : MbufMem) (ids : List ℕ) :
    (ids.flatMap fun p => (M.mbuf p).data).length = totalLen M ids := by
  rw [List.length_flatMap]
  simp only [Mbuf.length_data]
  rfl

theorem Inv.call (h : s.Inv writeSeq)
    (hroom : (s.taken c).length ≤ maxSkbFrags * c.headers.length) : (s.call c).Inv writeSeq := by
  obtain ⟨hsends, hreturned⟩ := h.tcpSendpages hroom
  unfold StreamState.call
  generalize s.tcpSendpages c = r at hsends hreturned
  generalize s.taken c = ids at hsends hreturned
  obtain ⟨t, returned⟩ := r
  dsimp only at hsends hreturned ⊢
  have hlength : t.appended.length = s.appended.length + totalLen s.mem ids := by
    rw [hsends.appended, List.length_append, length_flatMap_data]
  have hring : t.RingOk := h.toRingOk.takes hsends.toTakes
  refine { nodup := hring.nodup, inRange := hring.inRange, single := hring.single,
           bytes := ?_, seq := ?_, returned := ?_ }
  · obtain ⟨pre, henqueued, happended⟩ := h.bytes
    refine ⟨pre ++ ids.map fun p => (s.mem.mbuf p).data, ?_, ?_⟩
    · have hkept : t.txRing.map (fun p => (t.mem.mbuf p).data) =
          t.txRing.map fun p => (s.mem.mbuf p).data := by
        refine List.map_congr_left fun p hp => ?_
        rw [hsends.frame p hp]
      dsimp only
      rw [hkept, List.append_assoc, ← List.map_append, hsends.ring, hsends.enqueued, henqueued]
    · dsimp only
      rw [hsends.appended, happended, List.flatten_append]
      rfl
  · dsimp only
    rw [hsends.seq, h.seq, SendState.seqAdd_seqAdd, hlength]
  · intro r hr
    rcases List.mem_cons.mp hr with rfl | hr
    · dsimp only
      rw [hlength, Nat.add_sub_cancel_left]
      cases returned with
      | ok copied => exact hreturned
      | error err =>
          obtain rfl : ids = [] := hreturned
          rfl
    · rw [hsends.calls] at hr
      exact h.returned r hr

/-- A buffer that is not in `tx_ring` changes, and those in it do not. -/
theorem mbuf_of_frame {mem : MbufMem} {mbuf : ℕ}
    (hframe : ∀ p, p ≠ mbuf → mem.mbuf p = s.mem.mbuf p) (hnew : mbuf ∉ s.txRing) {p : ℕ}
    (hp : p ∈ s.txRing) : mem.mbuf p = s.mem.mbuf p := by
  refine hframe p ?_
  rintro rfl
  exact hnew hp

theorem RingOk.other {mem : MbufMem} {mbuf : ℕ} (h : s.RingOk) (hsize : mem.size = s.mem.size)
    (hframe : ∀ p, p ≠ mbuf → mem.mbuf p = s.mem.mbuf p) (hnew : mbuf ∉ s.txRing) :
    RingOk { s with mem } := by
  refine ⟨h.nodup, fun p hp => hsize ▸ h.inRange p hp, fun p hp => ?_⟩
  show (mem.mbuf p).next = none
  rw [mbuf_of_frame hframe hnew hp]
  exact h.single p hp

/-- A single buffer joins `tx_ring`. -/
theorem RingOk.enqueue {mem : MbufMem} {mbuf : ℕ} (h : s.RingOk) (hsize : mem.size = s.mem.size)
    (hframe : ∀ p, p ≠ mbuf → mem.mbuf p = s.mem.mbuf p) (hnext : mem.next mbuf = none)
    (hlt : mbuf < s.mem.size) (hnew : mbuf ∉ s.txRing) : (s.enqueue mem mbuf).RingOk := by
  have hring := h.other hsize hframe hnew
  constructor
  · exact List.nodup_append.mpr ⟨h.nodup, List.nodup_singleton _, by
      intro p hp q hq heq
      rw [List.mem_singleton.mp hq] at heq
      exact hnew (heq ▸ hp)⟩
  · intro p hp
    rcases List.mem_append.mp hp with hold | hmem
    · exact hring.inRange p hold
    · rw [List.mem_singleton.mp hmem]
      exact hsize ▸ hlt
  · intro p hp
    rcases List.mem_append.mp hp with hold | hmem
    · exact hring.single p hold
    · rw [List.mem_singleton.mp hmem]
      exact hnext

theorem Inv.other {mem : MbufMem} {mbuf : ℕ} (h : s.Inv writeSeq) (hsize : mem.size = s.mem.size)
    (hframe : ∀ p, p ≠ mbuf → mem.mbuf p = s.mem.mbuf p) (hnew : mbuf ∉ s.txRing) :
    Inv writeSeq { s with mem } := by
  have hring := h.toRingOk.other hsize hframe hnew
  obtain ⟨pre, henqueued, happended⟩ := h.bytes
  refine { hring with bytes := ⟨pre, ?_, happended⟩, seq := h.seq, returned := h.returned }
  dsimp only
  rw [henqueued]
  congr 1
  refine List.map_congr_left fun p hp => ?_
  rw [mbuf_of_frame hframe hnew hp]

theorem Inv.enqueue {mem : MbufMem} {mbuf : ℕ} (h : s.Inv writeSeq) (hsize : mem.size = s.mem.size)
    (hframe : ∀ p, p ≠ mbuf → mem.mbuf p = s.mem.mbuf p) (hnext : mem.next mbuf = none)
    (hlt : mbuf < s.mem.size) (hnew : mbuf ∉ s.txRing) : (s.enqueue mem mbuf).Inv writeSeq := by
  have hring := h.toRingOk.enqueue hsize hframe hnext hlt hnew
  obtain ⟨pre, henqueued, happended⟩ := (h.other hsize hframe hnew).bytes
  refine { hring with bytes := ⟨pre, ?_, happended⟩, seq := h.seq, returned := h.returned }
  simp only [StreamState.enqueue, List.map_append, List.map_cons, List.map_nil]
  dsimp only at henqueued
  rw [henqueued, List.append_assoc]

/-- What `ipaugenblick_send` does to the buffers. -/
theorem frame_send (M : MbufMem) (mbuf length : ℕ) :
    (∀ p, p ≠ mbuf → ((M.setDataLen mbuf length).setNext mbuf none).mbuf p = M.mbuf p) ∧
      ((M.setDataLen mbuf length).setNext mbuf none).next mbuf = none := by
  constructor
  · intro p hp
    exact (MbufMem.modify_of_ne _ _ hp).trans (MbufMem.modify_of_ne _ _ hp)
  · rw [MbufMem.next_setNext, Function.update_self]

theorem next_setDataLen (M : MbufMem) (mbuf length : ℕ) :
    (M.setDataLen mbuf length).next = M.next := M.next_modify mbuf rfl

/-- **Step lemma.** -/
theorem Inv.step {mem₀ : MbufMem} {a : StreamStep} (h : s.Inv writeSeq) (hok : streamOk s a)
    (ht : (streamMachine mem₀ writeSeq).step s a = some t) : t.Inv writeSeq := by
  cases a with
  | send mbuf length =>
      simp only [streamMachine] at ht
      split at ht
      next hnew =>
          obtain rfl := Option.some.inj ht
          obtain ⟨hframe, hnext⟩ := frame_send s.mem mbuf length
          exact h.enqueue rfl hframe hnext hnew.1 hnew.2
      next => cases ht
  | sendBulk mbuf length =>
      simp only [streamMachine] at ht
      split at ht
      next hnew =>
          obtain rfl := Option.some.inj ht
          refine h.enqueue rfl (fun p hp => MbufMem.modify_of_ne _ _ hp) ?_ hnew.1 hnew.2
          rw [next_setDataLen]
          exact hok
      next => cases ht
  | sendpages c =>
      obtain rfl := Option.some.inj ht
      exact h.call hok
  | other mbuf contents =>
      simp only [streamMachine] at ht
      split at ht
      next hnew =>
          obtain rfl := Option.some.inj ht
          exact h.other rfl (fun p hp => MbufMem.modify_of_ne _ _ hp) hnew
      next => cases ht

end StreamState

/-- **The transmit stream is conserved** in every run in which every allocation of a call
succeeds and `ipaugenblick_send_bulk` is given single buffers. -/
theorem transmit_stream_conserved {mem : MbufMem} {writeSeq : ℕ} {s : StreamState}
    (hreach : (streamMachine mem writeSeq).ReachableWhere streamOk s) : s.Exact writeSeq := by
  have hinv : s.Inv writeSeq := by
    refine (streamMachine mem writeSeq).invariant_of_step ?_ ?_ hreach
    · exact { bytes := ⟨[], rfl, rfl⟩, seq := rfl, returned := nofun, nodup := List.nodup_nil
              inRange := nofun, single := nofun }
    · intro s a t h hok hstep
      exact h.step hok hstep
  exact hinv.toExact

instance (s : StreamState) : ∀ a, Decidable (streamOk s a)
  | .sendBulk mbuf _ => inferInstanceAs (Decidable (s.mem.next mbuf = none))
  | .sendpages c =>
      inferInstanceAs (Decidable ((s.taken c).length ≤ maxSkbFrags * c.headers.length))
  | .send _ _ | .other _ _ => .isTrue trivial

/-- Three buffers filled with their own number. -/
def numberedBuffers : MbufMem where
  mbuf p :=
    { dataOff := 0, dataLen := 0, pktLen := 0, nbSegs := 1, next := none, refcnt := 1
      buf := fun _ => UInt8.ofNat p }
  size := 3
  frees := []
  puts := []

theorem transmit_stream_conserved_two :
    ∃ s, (streamMachine numberedBuffers 7).ReachableWhere streamOk s ∧ s.appended = [1, 2] ∧
      s.Exact 7 := by
  have hrun : (((streamMachine numberedBuffers 7).restrict streamOk).run
      [.send 1 1, .sendBulk 2 1,
        .sendpages { mssNow := 1448, sizeGoal := 2896, headers := [0] }]).map
      (fun s => s.appended) = some [1, 2] := by decide +kernel
  obtain ⟨s, hs, hview⟩ := Option.map_eq_some_iff.mp hrun
  have hreach := Machine.reachableWhere_of_run _ hs
  exact ⟨s, hreach, hview, transmit_stream_conserved hreach⟩

/-- The client sends one byte and `sk_stream_alloc_skb` fails: the byte is gone. -/
theorem failed_allocation_loses_bytes :
    ∃ s, (streamMachine numberedBuffers 7).run
        [.send 1 1, .sendpages { mssNow := 1448, sizeGoal := 2896, headers := [] }] = some s ∧
      s.enqueued = [[1]] ∧ s.txRing = [] ∧ s.appended = [] ∧ ¬ s.Exact 7 := by
  have hrun : ((streamMachine numberedBuffers 7).run
      [.send 1 1, .sendpages { mssNow := 1448, sizeGoal := 2896, headers := [] }]).map
      (fun s => (s.enqueued, s.txRing, s.appended)) = some ([[1]], [], []) := by decide +kernel
  obtain ⟨s, hs, hview⟩ := Option.map_eq_some_iff.mp hrun
  simp only [Prod.mk.injEq] at hview
  obtain ⟨henqueued, hring, happended⟩ := hview
  refine ⟨s, hs, henqueued, hring, happended, ?_⟩
  intro h
  obtain ⟨pre, hpre, hbytes⟩ := h.bytes
  rw [henqueued, hring, List.map_nil, List.append_nil] at hpre
  rw [happended, ← hpre] at hbytes
  cases hbytes

end IpAugenblick
