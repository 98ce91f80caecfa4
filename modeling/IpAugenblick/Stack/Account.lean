/-
# Every byte of a stream is credited once

The account of `tx_space` comes out even when no debit is overwritten, no buffer is dropped
without a credit and no buffer is credited by two segments.  What breaks it are a send that
returns before the service has processed OPEN_SOCKET or SET_SOCKET_RING, an allocation failure
in `do_tcp_sendpages`, a trim that eats a whole fragment, and a cut inside a buffer.
-/

import IpAugenblick.Stack.Reach
import Mathlib.Data.BitVec

namespace IpAugenblick

open Lib

/-! ## The segments of a call -/

/-- The header buffers of the segments built so far are among `headers`. -/
structure SendState.HeadersFrom (headers : List ℕ) (s : SendState) : Prop where
  queue : ∀ k ∈ s.queue, ∃ h ∈ headers, k.headerMbuf = some h
  skb : ∀ k, s.skb = some k → ∃ h ∈ headers, k.headerMbuf = some h
  left : s.headers ⊆ headers

/-- So they are in the end. -/
theorem SendState.HeadersFrom.sendpagesLoop {headers : List ℕ} {s : SendState}
    (h : s.HeadersFrom headers) (fuel : ℕ) (p : Option ℕ) :
    (SendState.sendpagesLoop fuel s p).HeadersFrom headers := by
  induction fuel generalizing s p with
  | zero => exact h
  | succ fuel ih =>
      cases p with
      | none => exact h
      | some mbuf =>
          rw [SendState.sendpagesLoop]
          cases halloc : s.alloc with
          | none => exact ⟨h.queue, h.skb, h.left⟩
          | some pair =>
              obtain ⟨skb, s'⟩ := pair
              have hskb : (∃ h ∈ headers, skb.headerMbuf = some h) ∧
                  (∀ k ∈ s'.queue, ∃ h ∈ headers, k.headerMbuf = some h) ∧
                  s'.headers ⊆ headers := by
                obtain ⟨hfilling, rfl⟩ | ⟨header, rest, -, hheaders, rfl, rfl⟩ :=
                  SendState.alloc_cases halloc
                · exact ⟨h.skb skb hfilling, h.queue, h.left⟩
                · have hleft := h.left
                  rw [hheaders] at hleft
                  exact ⟨⟨header, hleft List.mem_cons_self, rfl⟩, h.queue,
                    fun i hi => hleft (List.mem_cons_of_mem _ hi)⟩
              obtain ⟨hheader, hqueue, hleft⟩ := hskb
              refine ih ?_ _
              unfold SendState.addMbuf
              dsimp only
              split
              next =>
                  refine ⟨fun k hk => ?_, fun k hk => (by cases hk), hleft⟩
                  rcases List.mem_append.mp hk with hold | hnew
                  · exact hqueue k hold
                  · rw [List.mem_singleton.mp hnew]
                    exact hheader
              next =>
                  refine ⟨hqueue, fun k hk => ?_, hleft⟩
                  obtain rfl := Option.some.inj hk
                  exact hheader

/-! ## The invariant -/

namespace CreditState

/-- Who has which buffer: `tx_ring` holds distinct single buffers that the write queue does not
hold, and the buffers that the stack took for itself are none of the client's. -/
structure Tidy (s : CreditState) : Prop where
  nodup : s.txRing.Nodup
  inRange : ∀ p ∈ s.txRing, p < s.stack.mem.size
  single : ∀ p ∈ s.txRing, s.stack.mem.next p = none
  ringApart : ∀ p ∈ s.txRing, p ∉ s.stack.pages
  headsApart : ∀ h ∈ s.stack.heads, h ∉ s.held

variable {s t : CreditState} {ids heads : List ℕ} {stack : ReshapeState}

theorem mem_held_iff {p : ℕ} : p ∈ s.held ↔ p ∈ s.txRing ∨ p ∈ s.stack.pages := List.mem_append

/-- A step of the stack leaves the buffers of `tx_ring` alone. -/
theorem Tidy.restack (h : s.Tidy) (hreach : s.stack.Reaches t.stack ids heads)
    (hring : t.txRing = s.txRing) : t.Tidy := by
  have hapart : ∀ p ∈ s.txRing, p ∉ ids := by
    intro p hp hids
    rcases List.mem_append.mp (hreach.ids hids) with hpage | hhead
    · exact h.ringApart p hp hpage
    · exact h.headsApart p hhead (List.mem_append_left _ hp)
  constructor
  · rw [hring]
    exact h.nodup
  · rw [hring]
    intro p hp
    rw [hreach.keeps.size]
    exact h.inRange p hp
  · rw [hring]
    intro p hp
    rw [hreach.keeps.next p (hapart p hp)]
    exact h.single p hp
  · rw [hring]
    intro p hp hpage
    exact h.ringApart p hp (hreach.pages hpage)
  · intro i hi hheld
    rw [mem_held_iff, hring] at hheld
    exact h.headsApart i (hreach.heads hi) (mem_held_iff.mpr (hheld.imp id (@hreach.pages i)))

/-- It leaves the data lengths of what the client enqueued. -/
theorem Tidy.dataLen (h : s.Tidy) (hreach : s.stack.Reaches stack ids heads) {p : ℕ}
    (hp : p ∈ s.held) : (stack.mem.mbuf p).dataLen = (s.stack.mem.mbuf p).dataLen :=
  hreach.keeps.dataLen fun hmem => h.headsApart p (hreach.changed hmem) hp

/-- The outstanding bytes after a step of the stack that drops only empty buffers. -/
theorem Tidy.outstanding_restack (h : s.Tidy) (hreach : s.stack.Reaches stack ids heads)
    (hstay : ∀ p ∈ s.stack.pages, p ∈ stack.pages ∨ (s.stack.mem.mbuf p).dataLen = 0) :
    ({ s with stack } : CreditState).outstanding = s.outstanding := by
  have hsub : ({ s with stack } : CreditState).held ⊆ s.held := by
    intro p hp
    exact mem_held_iff.mpr ((mem_held_iff.mp hp).imp id (@hreach.pages p))
  calc ({ s with stack } : CreditState).outstanding
      = weight (fun p => (s.stack.mem.mbuf p).dataLen) ({ s with stack } : CreditState).held :=
        weight_congr fun p hp => h.dataLen hreach (hsub hp)
    _ = s.outstanding := by
        refine weight_of_subset hsub fun p hp hnot => ?_
        rcases mem_held_iff.mp hp with hring | hpage
        · exact absurd (List.mem_append_left _ hring) hnot
        · exact (hstay p hpage).resolve_left fun hmem => hnot (List.mem_append_right _ hmem)

/-- The account depends on four things. -/
theorem Accounted.congr (h : s.Accounted) (hinitial : t.initial = s.initial)
    (hspace : t.txSpace = s.txSpace) (hout : t.outstanding = s.outstanding)
    (hsender : t.sender = s.sender) : t.Accounted := by
  unfold Accounted
  rw [hinitial, hspace, hout, hsender]
  exact h

/-- The invariant: the buffers are where they belong and the account is right.  The account is a
sum over the buffers that are in use, so it can only be kept together with where they are. -/
structure Inv (s : CreditState) : Prop extends s.Tidy where
  accounted : s.Accounted
  seq : s.writeSeq < 2 ^ 32

/-- A cut, a trim or a transmission. -/
theorem Inv.reshape (h : s.Inv) {a : ReshapeStep} (hok : creditOk s (.reshape a))
    (ht : s.stack.reshape a = some stack) : ({ s with stack } : CreditState).Inv := by
  have hkeep {ids heads : List ℕ} (hreach : s.stack.Reaches stack ids heads)
      (hstay : ∀ p ∈ s.stack.pages, p ∈ stack.pages ∨ (s.stack.mem.mbuf p).dataLen = 0) :
      ({ s with stack } : CreditState).Inv :=
    ⟨h.restack hreach rfl, h.accounted.congr rfl rfl (h.outstanding_restack hreach hstay) rfl,
      h.seq⟩
  unfold ReshapeState.reshape at ht
  cases a with
  | fragment i len =>
      cases hget : s.stack.queue[i]? with
      | none => simp [reshapeMachine, hget] at ht
      | some skb =>
          cases hspare : s.stack.spare with
          | nil => simp [reshapeMachine, hget, hspare] at ht
          | cons header rest =>
              simp only [reshapeMachine, hget, hspare] at ht
              split at ht
              next =>
                  obtain ⟨⟨M', skb', buff⟩, hcut, rfl⟩ := Option.map_eq_some_iff.mp ht
                  obtain ⟨hreach, hstay⟩ := ReshapeState.reaches_fragment hget hspare hcut
                  exact hkeep hreach fun p hp => .inl (hstay hp)
              next => cases ht
  | trimHead i len =>
      cases hget : s.stack.queue[i]? with
      | none => simp [reshapeMachine, hget] at ht
      | some skb =>
          simp only [reshapeMachine, hget] at ht
          split at ht
          next =>
              obtain rfl := Option.some.inj ht
              obtain ⟨hreach, hstay⟩ := ReshapeState.reaches_trimHead hget
              refine hkeep hreach fun p hp => ?_
              rcases hstay p hp with hkept | hdropped
              · exact .inl (ReshapeState.mem_pages_iff.mpr hkept)
              · obtain ⟨f, hf, rfl⟩ := List.mem_map.mp hdropped
                refine (hok skb hget f hf).symm.imp (fun hother => ?_) id
                obtain ⟨k, hk, hpk⟩ := List.mem_flatMap.mp hother
                rw [List.eraseIdx_eq_take_drop_succ, List.mem_append] at hk
                rw [ReshapeState.mem_pages_iff]
                refine ⟨k, ?_, hpk⟩
                dsimp only
                rw [List.set_eq_take_append_cons_drop,
                  if_pos (List.getElem?_eq_some_iff.mp hget).1, List.mem_append, List.mem_cons]
                exact hk.imp id .inr
          next => cases ht
  | transmit i hlen device =>
      cases hget : s.stack.queue[i]? with
      | none => simp [reshapeMachine, hget] at ht
      | some skb =>
          simp only [reshapeMachine, hget] at ht
          obtain ⟨⟨M', frame, spare⟩, hsend, rfl⟩ := Option.map_eq_some_iff.mp ht
          exact hkeep (ReshapeState.reaches_transmit hget hsend) fun p hp => .inl hp

/-- The callbacks credit the data length of every fragment's buffer. -/
theorem foldl_creditTransmitted (M : MbufMem) (txSpace : BitVec 32) (frags : List Frag) :
    frags.foldl creditTransmitted (M, txSpace) =
      (frags.foldl userTransmittedCallback M,
        txSpace + BitVec.ofNat 32 (totalLen M (frags.map Frag.page))) := by
  induction frags generalizing M txSpace with
  | nil => simp [totalLen]
  | cons f frags ih =>
      have htotal : totalLen (userTransmittedCallback M f) (frags.map Frag.page) =
          totalLen M (frags.map Frag.page) :=
        totalLen_congr (M.cores_rtePktmbufFreeSeg f.page) _
      rw [List.foldl_cons, creditTransmitted, ih, htotal, List.foldl_cons, List.map_cons]
      simp only [totalLen, total_cons, BitVec.ofNat_add]
      rw [BitVec.add_assoc]

/-- How far `sk_wmem_free_skb` reaches. -/
theorem reaches_wmemFreeSkb {i : ℕ} {skb : Skb} (hget : s.stack.queue[i]? = some skb) :
    s.stack.Reaches (s.wmemFreeSkb i skb).stack
      (skb.pages ++ (skb.pages ++ skb.headerMbuf.toList)) [] := by
  have hskb : skb ∈ s.stack.queue := List.mem_of_getElem? hget
  have hpage : ∀ p ∈ skb.pages, p ∈ s.stack.pages ++ s.stack.heads := fun p hp =>
    List.mem_append_left _ (ReshapeState.mem_pages_iff.mpr ⟨skb, hskb, hp⟩)
  have hrest : ∀ k ∈ s.stack.queue.eraseIdx i, k ∈ s.stack.queue := fun k hk =>
    (List.eraseIdx_sublist _ _).subset hk
  unfold wmemFreeSkb
  rw [foldl_creditTransmitted]
  refine ⟨(keeps_foldl_freeSeg _ _).trans (keeps_skbReleaseData _ skb), ?_, List.nil_subset _,
    ?_, ?_⟩
  · intro p hp
    simp only [List.mem_append] at hp
    rcases hp with hp | hp | hp
    · exact hpage p hp
    · exact hpage p hp
    · exact List.mem_append_right _
        (ReshapeState.mem_heads_iff.mpr (.inl ⟨skb, hskb, Option.mem_toList.mp hp⟩))
  · intro p hp
    obtain ⟨k, hk, hpk⟩ := ReshapeState.mem_pages_iff.mp hp
    exact ReshapeState.mem_pages_iff.mpr ⟨k, hrest k hk, hpk⟩
  · intro h hh
    rw [ReshapeState.mem_heads_iff] at hh ⊢
    refine hh.imp ?_ id
    rintro ⟨k, hk, hkh⟩
    exact ⟨k, hrest k hk, hkh⟩

/-- What is held, with the `i`-th segment in front. -/
theorem held_perm {i : ℕ} {skb : Skb} (hget : s.stack.queue[i]? = some skb) :
    s.held.Perm (skb.pages ++ (s.txRing ++ (s.stack.queue.eraseIdx i).flatMap Skb.pages)) := by
  obtain ⟨hlt, rfl⟩ := List.getElem?_eq_some_iff.mp hget
  have hqueue := (List.getElem_cons_eraseIdx_perm hlt).symm.flatMap_right Skb.pages
  rw [List.flatMap_cons] at hqueue
  exact (hqueue.append_left s.txRing).trans (List.perm_append_comm_assoc _ _ _)

/-- `sk_wmem_free_skb` of a segment that shares no buffer. -/
theorem Inv.freeSkb (h : s.Inv) {i : ℕ} {skb : Skb} (hget : s.stack.queue[i]? = some skb)
    (hok : creditOk s (.freeSkb i)) : (s.wmemFreeSkb i skb).Inv := by
  have hreach := reaches_wmemFreeSkb hget
  have hperm := held_perm hget
  have htidy : (s.wmemFreeSkb i skb).Tidy := h.restack hreach rfl
  have hleft : (s.wmemFreeSkb i skb).held =
      s.txRing ++ (s.stack.queue.eraseIdx i).flatMap Skb.pages := rfl
  have hafter : (s.wmemFreeSkb i skb).outstanding =
      weight (fun p => (s.stack.mem.mbuf p).dataLen) (s.wmemFreeSkb i skb).held := by
    refine weight_congr fun p hp => h.dataLen hreach (hperm.mem_iff.mpr ?_)
    exact List.mem_append_right _ hp
  have hbefore : s.outstanding = totalLen s.stack.mem skb.pages +
      (s.wmemFreeSkb i skb).outstanding := by
    rw [hafter, hleft, outstanding, weight_perm hperm]
    refine weight_release fun p hp => (hok skb hget p hp).imp id fun honce => ?_
    rw [← hperm.count_eq]
    exact honce
  refine ⟨htidy, fun wspace hw => ?_, h.seq⟩
  have hspace : (s.wmemFreeSkb i skb).txSpace =
      s.txSpace + BitVec.ofNat 32 (totalLen s.stack.mem skb.pages) :=
    congrArg Prod.snd (foldl_creditTransmitted s.stack.mem s.txSpace skb.shinfo.frags)
  rw [hspace, h.accounted wspace hw, hbefore, BitVec.ofNat_add]
  show _ = wspace - _ + BitVec.ofNat 32 s.sender.undebited
  ring

/-- A change of buffers that the client's are not among. -/
theorem Inv.remem (h : s.Inv) {mem : MbufMem} (hsize : mem.size = s.stack.mem.size)
    (hheld : ∀ p ∈ s.held, mem.mbuf p = s.stack.mem.mbuf p) :
    ({ s with stack := { s.stack with mem } } : CreditState).Inv := by
  have hring : ∀ p ∈ s.txRing, mem.mbuf p = s.stack.mem.mbuf p := fun p hp =>
    hheld p (List.mem_append_left _ hp)
  refine ⟨⟨h.nodup, ?_, ?_, h.ringApart, h.headsApart⟩, h.accounted.congr rfl rfl ?_ rfl, h.seq⟩
  · intro p hp
    dsimp only
    rw [hsize]
    exact h.inRange p hp
  · intro p hp
    show (mem.mbuf p).next = none
    rw [hring p hp]
    exact h.single p hp
  · exact weight_congr fun p hp => congrArg Mbuf.dataLen (hheld p hp)

/-- Buffers of the client join `tx_ring`; their bytes are outstanding and not subtracted yet. -/
theorem Inv.joinRing (h : s.Inv) (hidle : s.sender = .idle) {mbufs : List ℕ}
    (howns : s.Owns mbufs) (hsingle : ∀ p ∈ mbufs, s.stack.mem.next p = none) :
    ({ s with
      txRing := s.txRing ++ mbufs
      sender := .debit (totalLen s.stack.mem mbufs) } : CreditState).Inv := by
  obtain ⟨hnodup, hfree⟩ := howns
  have hheld : ∀ p ∈ mbufs, p ∉ s.held := fun p hp hmem =>
    (hfree p hp).2 (List.mem_append_left _ hmem)
  have hheads : ∀ p ∈ mbufs, p ∉ s.stack.heads := fun p hp hmem =>
    (hfree p hp).2 (List.mem_append_right _ hmem)
  have hout : weight (fun p => (s.stack.mem.mbuf p).dataLen)
      (s.txRing ++ mbufs ++ s.stack.pages) = s.outstanding + totalLen s.stack.mem mbufs := by
    have hperm : (s.txRing ++ mbufs ++ s.stack.pages).Perm (s.held ++ mbufs) := by
      rw [held, List.append_assoc, List.append_assoc]
      exact List.perm_append_comm.append_left s.txRing
    rw [weight_perm hperm]
    exact weight_append_fresh hnodup hheld
  refine ⟨⟨?_, ?_, ?_, ?_, ?_⟩, fun wspace hw => ?_, h.seq⟩
  · refine List.nodup_append.mpr ⟨h.nodup, hnodup, fun p hp q hq heq => ?_⟩
    exact hheld q hq (heq ▸ List.mem_append_left _ hp)
  · intro p hp
    exact (List.mem_append.mp hp).elim (h.inRange p) fun hnew => (hfree p hnew).1
  · intro p hp
    exact (List.mem_append.mp hp).elim (h.single p) (hsingle p)
  · intro p hp
    rcases List.mem_append.mp hp with hold | hnew
    · exact h.ringApart p hold
    · exact fun hpage => hheld p hnew (List.mem_append_right _ hpage)
  · intro i hi hmem
    simp only [mem_held_iff, List.mem_append] at hmem
    rcases hmem with (hold | hnew) | hpage
    · exact h.headsApart i hi (List.mem_append_left _ hold)
    · exact hheads i hnew hi
    · exact h.headsApart i hi (List.mem_append_right _ hpage)
  · have hbefore := h.accounted wspace hw
    rw [hidle] at hbefore
    show s.txSpace = wspace - BitVec.ofNat 32 (weight _ (s.txRing ++ mbufs ++ s.stack.pages)) +
      BitVec.ofNat 32 (totalLen s.stack.mem mbufs)
    rw [hout, hbefore, BitVec.ofNat_add]
    show _ + (0 : BitVec 32) = _
    ring

/-- The enqueue of a send, in a memory in which the data lengths of its buffers are set. -/
theorem Inv.enqueueTxBufs (h : s.Inv) (hidle : s.sender = .idle) {bufs : List (ℕ × ℕ)}
    (howns : s.Owns (bufs.map Prod.fst)) {mem : MbufMem} (hsize : mem.size = s.stack.mem.size)
    (hothers : ∀ p, p ∉ bufs.map Prod.fst → mem.mbuf p = s.stack.mem.mbuf p)
    (hlen : ∀ b ∈ bufs, (mem.mbuf b.1).dataLen = b.2)
    (hsingle : ∀ b ∈ bufs, mem.next b.1 = none) : (s.enqueueTxBufs mem bufs).Inv := by
  have hset := h.remem hsize fun p hp => hothers p fun hmem =>
    (howns.2 p hmem).2 (List.mem_append_left _ hp)
  unfold CreditState.enqueueTxBufs
  split
  next =>
      have htotal : totalLen mem (bufs.map Prod.fst) = (bufs.map Prod.snd).sum := by
        unfold totalLen total
        rw [List.map_map]
        exact congrArg List.sum (List.map_congr_left hlen)
      rw [← htotal]
      refine hset.joinRing hidle ⟨howns.1, fun p hp => ⟨?_, (howns.2 p hp).2⟩⟩ fun p hp => ?_
      · dsimp only
        rw [hsize]
        exact (howns.2 p hp).1
      · obtain ⟨b, hb, rfl⟩ := List.mem_map.mp hp
        exact hsingle b hb
  next => exact hset

/-- The loop of `ipaugenblick_send_bulk` over the data lengths. -/
theorem foldl_setDataLen (M : MbufMem) {bufs : List (ℕ × ℕ)}
    (hnodup : (bufs.map Prod.fst).Nodup) :
    (bufs.foldl (fun M b => M.setDataLen b.1 b.2) M).size = M.size ∧
      (∀ p, p ∉ bufs.map Prod.fst →
        (bufs.foldl (fun M b => M.setDataLen b.1 b.2) M).mbuf p = M.mbuf p) ∧
      (∀ b ∈ bufs,
        ((bufs.foldl (fun M b => M.setDataLen b.1 b.2) M).mbuf b.1).dataLen = b.2 % 65536) ∧
      (bufs.foldl (fun M b => M.setDataLen b.1 b.2) M).next = M.next := by
  induction bufs generalizing M with
  | nil => exact ⟨rfl, fun _ _ => rfl, nofun, rfl⟩
  | cons b bufs ih =>
      rw [List.map_cons, List.nodup_cons] at hnodup
      obtain ⟨hsize, hothers, hlen, hnext⟩ := ih (M.setDataLen b.1 b.2) hnodup.2
      rw [List.foldl_cons]
      refine ⟨hsize, fun p hp => ?_, fun b' hb' => ?_, ?_⟩
      · rw [List.map_cons, List.mem_cons, not_or] at hp
        rw [hothers p hp.2]
        exact M.modify_of_ne _ hp.1
      · rcases List.mem_cons.mp hb' with rfl | hrest
        · rw [hothers b'.1 hnodup.1]
          exact congrArg Mbuf.dataLen (M.modify_self b'.1 _)
        · exact hlen b' hrest
      · rw [hnext]
        exact M.next_modify b.1 rfl

/-- Buffers move from the front of `tx_ring` to the end of the write queue. -/
theorem Inv.moved (h : s.Inv) {headers ids txRing : List ℕ} (hheaders : ∀ i ∈ headers, i ∉ s.inUse)
    {sent : SendState} (hrest : ids ++ txRing = s.txRing)
    (hpages : sent.queue.flatMap Skb.pages = ids)
    (hfrom : ∀ k ∈ sent.queue, ∃ i ∈ headers, k.headerMbuf = some i)
    (hcores : sent.mem.cores = s.stack.mem.cores) (hsize : sent.mem.size = s.stack.mem.size)
    (hframe : ∀ p, p ∉ ids → sent.mem.mbuf p = s.stack.mem.mbuf p)
    (hseq : sent.writeSeq < 2 ^ 32) :
    ({ s with
      stack := { s.stack with mem := sent.mem, queue := s.stack.queue ++ sent.queue }
      txRing
      writeSeq := sent.writeSeq } : CreditState).Inv := by
  have hnodup := h.nodup
  rw [← hrest] at hnodup
  have hstays : ∀ p ∈ txRing, p ∈ s.txRing := fun p hp => hrest ▸ List.mem_append_right _ hp
  have hmoved : ∀ p ∈ ids, p ∈ s.txRing := fun p hp => hrest ▸ List.mem_append_left _ hp
  have hapart : ∀ p ∈ txRing, p ∉ ids := fun p hp hmem =>
    (List.nodup_append.mp hnodup).2.2 p hmem p hp rfl
  have hqueue : (s.stack.queue ++ sent.queue).flatMap Skb.pages = s.stack.pages ++ ids := by
    rw [List.flatMap_append, hpages]
    rfl
  have hperm : (txRing ++ (s.stack.pages ++ ids)).Perm s.held := by
    rw [held, ← hrest, List.append_assoc]
    exact (List.perm_append_comm.append_left txRing).trans (List.perm_append_comm_assoc _ _ _)
  refine ⟨⟨(List.nodup_append.mp hnodup).2.1, ?_, ?_, ?_, ?_⟩, ?_, hseq⟩
  · intro p hp
    dsimp only
    rw [hsize]
    exact h.inRange p (hstays p hp)
  · intro p hp
    show (sent.mem.mbuf p).next = none
    rw [hframe p (hapart p hp)]
    exact h.single p (hstays p hp)
  · intro p hp hmem
    rw [ReshapeState.pages, hqueue, List.mem_append] at hmem
    exact hmem.elim (h.ringApart p (hstays p hp)) (hapart p hp)
  · intro i hi hmem
    have hheld : i ∈ s.held := by
      rw [held, ReshapeState.pages, hqueue] at hmem
      exact hperm.mem_iff.mp hmem
    rcases ReshapeState.mem_heads_iff.mp hi with ⟨k, hk, hki⟩ | hspare
    · rcases List.mem_append.mp hk with hold | hnew
      · exact h.headsApart i (ReshapeState.mem_heads_iff.mpr (.inl ⟨k, hold, hki⟩)) hheld
      · obtain ⟨j, hj, hkj⟩ := hfrom k hnew
        obtain rfl := Option.some.inj (hki.symm.trans hkj)
        exact hheaders i hj (List.mem_append_left _ hheld)
    · exact h.headsApart i (ReshapeState.mem_heads_iff.mpr (.inr hspare)) hheld
  · refine h.accounted.congr rfl rfl ?_ rfl
    unfold outstanding
    rw [held, ReshapeState.pages, hqueue, weight_perm hperm]
    exact weight_congr fun p _ => MbufMem.dataLen_congr hcores p

/-- The loop of `do_tcp_sendpages` over the chain `ids` of what was dequeued, in the memory `mem`
in which they are linked. -/
theorem Inv.sent (h : s.Inv) {c : SendpagesCall} (hheaders : ∀ i ∈ c.headers, i ∉ s.inUse)
    {ids txRing : List ℕ} {mem : MbufMem} {first : ℕ}
    (hroom : ids.length ≤ maxSkbFrags * c.headers.length) (hrest : ids ++ txRing = s.txRing)
    (hlinked : Linked mem.next (some first) ids) (hfit : ids.length ≤ mem.size)
    (hcores : mem.cores = s.stack.mem.cores) (hsize : mem.size = s.stack.mem.size)
    (hframe : ∀ p, p ∉ ids → mem.mbuf p = s.stack.mem.mbuf p) :
    ({ s with
      stack := { s.stack with
        mem := (doTcpSendpages mem c.headers s.writeSeq (some first)).mem
        queue := s.stack.queue ++ (doTcpSendpages mem c.headers s.writeSeq (some first)).queue }
      txRing
      writeSeq := (doTcpSendpages mem c.headers s.writeSeq (some first)).writeSeq } :
        CreditState).Inv := by
  obtain ⟨start, hstart⟩ : ∃ start : SendState, start =
      ⟨mem, c.headers, s.writeSeq, [], none, 0⟩ := ⟨_, rfl⟩
  have hcall : doTcpSendpages mem c.headers s.writeSeq (some first) =
      SendState.sendpagesLoop mem.size start (some first) := by rw [hstart]; rfl
  have hchain : Linked start.mem.next (some first) ids := by rw [hstart]; exact hlinked
  have hempty : start.Fills mem s.writeSeq [] start.current := by
    rw [hstart]
    exact ⟨rfl, nofun, nofun, rfl, (Nat.mod_eq_of_lt h.seq).symm, rfl⟩
  have hfills := (hempty.sendpagesLoop hchain hfit (by rw [hstart]; exact hroom)
    (by rw [hstart]; nofun) (by rw [hstart]; exact fun _ => rfl) 0).1
  have hfrom : (SendState.sendpagesLoop mem.size start (some first)).HeadersFrom c.headers := by
    refine SendState.HeadersFrom.sendpagesLoop ?_ _ _
    rw [hstart]
    exact ⟨nofun, nofun, List.Subset.refl _⟩
  obtain ⟨hsent, hkept⟩ := SendState.frame_sendpagesLoop mem.size hchain
    (by rw [hstart]; exact hfit)
  have hmem : start.mem = mem := by rw [hstart]
  rw [hcall]
  rw [hmem] at hsent hkept
  generalize SendState.sendpagesLoop mem.size start (some first) = sent at *
  have hpages : sent.queue.flatMap Skb.pages = ids :=
    (List.append_nil _).symm.trans hfills.pages
  have hseq : sent.writeSeq < 2 ^ 32 := by
    rw [hfills.seq]
    exact Nat.mod_lt _ (by decide)
  exact h.moved hheaders hrest hpages hfrom.queue (hfills.cores.trans hcores) (hsent.trans hsize)
    (fun p hp => (hkept p hp).trans (hframe p hp)) hseq

/-- **A call of `do_tcp_sendpages` whose allocations suffice** moves buffers from `tx_ring` to the
write queue. -/
theorem Inv.sendpages (h : s.Inv) {c : SendpagesCall} (hheaders : ∀ i ∈ c.headers, i ∉ s.inUse)
    (hok : creditOk s (.sendpages c)) : (s.sendpages c).Inv := by
  unfold CreditState.sendpages
  split
  next hadmitted =>
      have hroom := hok hadmitted
      have hgot : GotBuffers s.stack.mem c.sizeGoal s.txRing []
          (userGetBuffer s.stack.mem c.sizeGoal s.txRing) := userGetBuffer_spec h.nodup h.single
      obtain ⟨-, hrest, hlinked, hcores, hsize, hframe⟩ := hgot
      generalize takenBufs s.stack.mem c.sizeGoal s.txRing = ids at *
      generalize userGetBuffer s.stack.mem c.sizeGoal s.txRing = got at *
      obtain ⟨mem, copy, first, txRing⟩ := got
      dsimp only at hrest hlinked hcores hsize hframe ⊢
      rw [List.nil_append] at hlinked hframe
      cases first with
      | none => exact h
      | some first =>
          have hring : ∀ p ∈ ids, p ∈ s.txRing := fun p hp => hrest ▸ List.mem_append_left _ hp
          have hfit : ids.length ≤ mem.size := by
            rw [hsize]
            exact MbufMem.length_le_size hlinked.nodup fun p hp => h.inRange p (hring p hp)
          exact h.sent hheaders hroom hrest hlinked hfit hcores hsize hframe
  next => exact h

/-- OPEN_SOCKET or SET_SOCKET_RING before anything was subtracted. -/
theorem Inv.openSocket (h : s.Inv) {wspace : BitVec 32}
    (hok : creditOk s (.openSocket wspace)) :
    ({ s with txSpace := wspace, initial := some wspace } : CreditState).Inv := by
  refine ⟨⟨h.nodup, h.inRange, h.single, h.ringApart, h.headsApart⟩, fun w hw => ?_, h.seq⟩
  obtain rfl := Option.some.inj hw
  show wspace = wspace - BitVec.ofNat 32 s.outstanding + BitVec.ofNat 32 s.sender.undebited
  rw [show s.outstanding = s.sender.undebited from hok]
  ring

/-- The sender subtracts what it enqueued. -/
theorem Inv.debit (h : s.Inv) {length : ℕ} (hsender : s.sender = .debit length) :
    ({ s with sender := .idle, txSpace := s.txSpace - BitVec.ofNat 32 length } :
      CreditState).Inv := by
  refine ⟨⟨h.nodup, h.inRange, h.single, h.ringApart, h.headsApart⟩, fun w hw => ?_, h.seq⟩
  have hbefore := h.accounted w hw
  rw [hsender] at hbefore
  show s.txSpace - BitVec.ofNat 32 length =
    w - BitVec.ofNat 32 s.outstanding + (0 : BitVec 32)
  rw [hbefore]
  show _ + BitVec.ofNat 32 length - _ = _
  ring

/-- The stack takes a buffer that nobody has. -/
theorem Inv.alloc (h : s.Inv) {mbuf : ℕ} (hfree : mbuf ∉ s.inUse) :
    ({ s with stack := { s.stack with spare := s.stack.spare ++ [mbuf] } } : CreditState).Inv := by
  refine ⟨⟨h.nodup, h.inRange, h.single, h.ringApart, fun i hi hheld => ?_⟩,
    h.accounted.congr rfl rfl rfl rfl, h.seq⟩
  rcases ReshapeState.mem_heads_iff.mp hi with hhead | hspare
  · exact h.headsApart i (ReshapeState.mem_heads_iff.mpr (.inl hhead)) hheld
  · rcases List.mem_append.mp hspare with hold | hnew
    · exact h.headsApart i (ReshapeState.mem_heads_iff.mpr (.inr hold)) hheld
    · rw [List.mem_singleton.mp hnew] at hheld
      exact hfree (List.mem_append_left _ hheld)

/-- **Step lemma.** -/
theorem Inv.step (h : s.Inv) {mem : MbufMem} {writeSeq : ℕ} {txSpace : BitVec 32}
    {a : CreditStep} (hok : creditOk s a)
    (ht : (creditMachine mem writeSeq txSpace).step s a = some t) : t.Inv := by
  cases a with
  | send mbuf length =>
      simp only [creditMachine] at ht
      split at ht
      next hcan =>
          obtain rfl := Option.some.inj ht
          have howns : s.Owns ([(mbuf, length)].map Prod.fst) := hcan.2
          refine h.enqueueTxBufs hcan.1 howns rfl (fun p hp => ?_) (fun b hb => ?_) fun b hb => ?_
          · have hne : p ≠ mbuf := by simpa using hp
            rw [MbufMem.setNext, MbufMem.modify_of_ne _ _ hne]
            exact MbufMem.modify_of_ne _ _ hne
          · rw [List.mem_singleton.mp hb, MbufMem.setNext, MbufMem.modify_self]
            exact (congrArg Mbuf.dataLen (MbufMem.modify_self _ _ _)).trans (Nat.mod_eq_of_lt hok)
          · rw [List.mem_singleton.mp hb, MbufMem.next_setNext, Function.update_self]
      next => cases ht
  | sendBulk bufs =>
      simp only [creditMachine] at ht
      split at ht
      next hcan =>
          obtain rfl := Option.some.inj ht
          obtain ⟨hsize, hothers, hlen, hnext⟩ := foldl_setDataLen s.stack.mem hcan.2.1
          refine h.enqueueTxBufs hcan.1 hcan.2 hsize hothers (fun b hb => ?_) fun b hb => ?_
          · exact (hlen b hb).trans (Nat.mod_eq_of_lt (hok b hb).1)
          · rw [hnext]
            exact (hok b hb).2
      next => cases ht
  | debit =>
      simp only [creditMachine] at ht
      split at ht
      next length hsender =>
          obtain rfl := Option.some.inj ht
          exact h.debit hsender
      next => cases ht
  | openSocket wspace =>
      simp only [creditMachine] at ht
      split at ht
      next =>
          obtain rfl := Option.some.inj ht
          exact h.openSocket hok
      next => cases ht
  | sendpages c =>
      simp only [creditMachine] at ht
      split at ht
      next hcan =>
          obtain rfl := Option.some.inj ht
          exact h.sendpages hcan.2 hok
      next => cases ht
  | reshape a =>
      obtain ⟨stack, hstack, rfl⟩ := Option.map_eq_some_iff.mp ht
      exact h.reshape hok hstack
  | freeSkb i =>
      simp only [creditMachine] at ht
      split at ht
      next skb hget =>
          obtain rfl := Option.some.inj ht
          exact h.freeSkb hget hok
      next => cases ht
  | alloc mbuf =>
      simp only [creditMachine] at ht
      split at ht
      next hfree =>
          obtain rfl := Option.some.inj ht
          exact h.alloc hfree
      next => cases ht
  | other mbuf contents =>
      simp only [creditMachine] at ht
      split at ht
      next hfree =>
          obtain rfl := Option.some.inj ht
          refine h.remem rfl fun p hp => MbufMem.modify_of_ne _ _ ?_
          rintro rfl
          exact hfree hp
      next => cases ht

end CreditState

/-- **The account of `tx_space`.**  In every run that meets the guard, `tx_space` is at any moment
what `sk_stream_wspace` was when it was set, less the bytes of the buffers that the client
enqueued and the stack has not released, but for the bytes of a send that is about to subtract
them. -/
theorem tx_space_accounted {mem : MbufMem} {writeSeq : ℕ} {txSpace : BitVec 32} {s : CreditState}
    (hreach : (creditMachine mem writeSeq txSpace).ReachableWhere creditOk s) : s.Accounted := by
  have hinv : s.Inv := by
    refine Machine.invariant_of_step _ ?_ ?_ hreach
    · exact ⟨⟨List.nodup_nil, nofun, nofun, nofun, nofun⟩, nofun, Nat.mod_lt _ (by decide)⟩
    · intro s a t h hok ht
      exact h.step hok ht
  exact hinv.accounted

instance (s : CreditState) (a : CreditStep) : Decidable (creditOk s a) :=
  match a with
  | .send _ length => inferInstanceAs (Decidable (length < 65536))
  | .sendBulk bufs =>
      inferInstanceAs (Decidable (∀ b ∈ bufs, b.2 < 65536 ∧ s.stack.mem.next b.1 = none))
  | .openSocket _ => inferInstanceAs (Decidable (s.outstanding = s.sender.undebited))
  | .sendpages c =>
      inferInstanceAs (Decidable (StreamState.Admitted c →
        (takenBufs s.stack.mem c.sizeGoal s.txRing).length ≤ maxSkbFrags * c.headers.length))
  | .reshape (.trimHead i len) =>
      inferInstanceAs (Decidable (∀ skb ∈ s.stack.queue[i]?, ∀ f ∈ trimmedFrags skb len,
        (s.stack.mem.mbuf f.page).dataLen = 0 ∨
          f.page ∈ (s.stack.queue.eraseIdx i).flatMap Skb.pages))
  | .freeSkb i =>
      inferInstanceAs (Decidable (∀ skb ∈ s.stack.queue[i]?, ∀ p ∈ skb.pages,
        (s.stack.mem.mbuf p).dataLen = 0 ∨ s.held.count p = 1))
  | .reshape (.fragment _ _) => .isTrue trivial
  | .reshape (.transmit _ _ _) => .isTrue trivial
  | .debit => .isTrue trivial
  | .alloc _ => .isTrue trivial
  | .other _ _ => .isTrue trivial

/-- The account of a connection that is open. -/
theorem CreditState.accounted_iff {s : CreditState} {wspace : BitVec 32}
    (hopen : s.initial = some wspace) :
    s.Accounted ↔ s.txSpace =
      wspace - BitVec.ofNat 32 s.outstanding + BitVec.ofNat 32 s.sender.undebited := by
  constructor
  · exact fun h => h wspace hopen
  · intro h w hw
    obtain rfl := Option.some.inj (hopen.symm.trans hw)
    exact h

def eightBuffers : MbufMem where
  mbuf _ :=
    { dataOff := 128, dataLen := 0, pktLen := 0, nbSegs := 1, next := none, refcnt := 1,
      buf := fun _ => 0 }
  size := 8
  frees := []
  puts := []

/-- A call that takes up to two full buffers and gets the header buffer 0. -/
def twoBufferCall : SendpagesCall := { mssNow := 1448, sizeGoal := 2896, headers := [0] }

/-- A connection with a credit of 1000 bytes on which two buffers of ten bytes were sent and
queued as one segment. -/
def sendTwo : List CreditStep :=
  [.openSocket 1000, .send 1 10, .debit, .sendBulk [(2, 10)], .debit, .sendpages twoBufferCall]

/-- The segment is cut between its buffers, the first half is sent and freed. -/
theorem tx_space_accounted_first_half :
    ∃ s, (creditMachine eightBuffers 0 0).ReachableWhere creditOk s ∧ s.txSpace = 990 ∧
      s.outstanding = 10 ∧ s.Accounted := by
  have hrun : (((creditMachine eightBuffers 0 0).restrict creditOk).run
      (sendTwo ++ [.alloc 3, .reshape (.fragment 0 10), .reshape (.transmit 0 40 .dpdk),
        .freeSkb 0])).map (fun s => (s.txSpace, s.outstanding)) = some (990, 10) := by
    decide +kernel
  obtain ⟨s, hs, hview⟩ := Option.map_eq_some_iff.mp hrun
  rw [Prod.mk.injEq] at hview
  have hreach := Machine.reachableWhere_of_run _ hs
  exact ⟨s, hreach, hview.1, hview.2, tx_space_accounted hreach⟩

def sendBeforeOpen : List CreditStep := [.send 1 10, .debit, .openSocket 1000]

/-- No segment can be allocated for a buffer that was dequeued. -/
def sendWithoutSkb : List CreditStep :=
  [.openSocket 1000, .send 1 10, .debit, .sendpages { twoBufferCall with headers := [] }]

/-- The first buffer of the segment is acknowledged alone. -/
def trimFirstBuffer : List CreditStep := sendTwo ++ [.reshape (.trimHead 0 10), .freeSkb 0]

/-- The segment is cut inside its first buffer and both halves are freed. -/
def cutInsideBuffer : List CreditStep :=
  sendTwo ++ [.alloc 3, .reshape (.fragment 0 4), .freeSkb 0, .freeSkb 0]

/-- A debit is overwritten; bytes are never credited, twice; bytes are credited twice. -/
theorem tx_space_not_accounted :
    (∃ s, (creditMachine eightBuffers 0 0).run sendBeforeOpen = some s ∧ s.txSpace = 1000 ∧
        s.outstanding = 10 ∧ ¬ s.Accounted) ∧
      (∃ s, (creditMachine eightBuffers 0 0).run sendWithoutSkb = some s ∧ s.txSpace = 990 ∧
        s.outstanding = 0 ∧ ¬ s.Accounted) ∧
      (∃ s, (creditMachine eightBuffers 0 0).run trimFirstBuffer = some s ∧ s.txSpace = 990 ∧
        s.outstanding = 0 ∧ ¬ s.Accounted) ∧
      (∃ s, (creditMachine eightBuffers 0 0).run cutInsideBuffer = some s ∧ s.txSpace = 1010 ∧
        s.outstanding = 0 ∧ ¬ s.Accounted) := by
  have hview {as : List CreditStep} {txSpace : BitVec 32} {outstanding : ℕ}
      (hrun : ((creditMachine eightBuffers 0 0).run as).map
        (fun s => (s.txSpace, s.outstanding, s.initial, s.sender)) =
          some (txSpace, outstanding, some 1000, .idle))
      (hne : txSpace ≠ 1000 - BitVec.ofNat 32 outstanding + BitVec.ofNat 32 0) :
      ∃ s, (creditMachine eightBuffers 0 0).run as = some s ∧ s.txSpace = txSpace ∧
        s.outstanding = outstanding ∧ ¬ s.Accounted := by
    obtain ⟨s, hs, hview⟩ := Option.map_eq_some_iff.mp hrun
    simp only [Prod.mk.injEq] at hview
    obtain ⟨rfl, rfl, hopen, hsender⟩ := hview
    refine ⟨s, hs, rfl, rfl, fun haccount => hne ?_⟩
    rw [CreditState.accounted_iff hopen, hsender] at haccount
    exact haccount
  exact ⟨hview (by decide +kernel) (by decide), hview (by decide +kernel) (by decide),
    hview (by decide +kernel) (by decide), hview (by decide +kernel) (by decide)⟩

end IpAugenblick
