/-
# What `do_tcp_sendpages` builds

The buffers of one `user_get_buffer` chain become the fragments of one or more
segments.  Every segment that reaches the write queue covers the whole data of
its buffers, its buffers are unlinked and otherwise untouched, and its length and
sequence range are the sum of their lengths.  When no segment can be allocated
the rest of the chain is freed, which leaves the segments already queued alone.
-/

import IpAugenblick.Lib.Boundary
import IpAugenblick.Stack.Skb

namespace IpAugenblick

open Lib

/-- The fragment that covers the whole data of a buffer. -/
def wholeFrag (M : MbufMem) (p : ℕ) : Frag :=
  { page := p, pageOffset := 0, size := (M.mbuf p).dataLen }

def totalLen (M : MbufMem) (ps : List ℕ) : ℕ := total (fun p => (M.mbuf p).dataLen) ps

/-- What the caller of `do_tcp_sendpages` provides: a chain of distinct buffers
that are in use, and freshly allocated header buffers that are none of them. -/
structure SendInput (M : MbufMem) (headers : List ℕ) (first : Option ℕ) (ids : List ℕ) :
    Prop where
  linked : Linked M.next first ids
  distinct : ids.Nodup
  headersApart : ∀ h ∈ headers, h ∉ ids
  headersInRange : ∀ h ∈ headers, h < M.size
  headersCount : ∀ h ∈ headers, M.refcnt h = 1
  inRange : ∀ i ∈ ids, i < M.size
  inUse : ∀ i ∈ ids, i ∉ M.puts

namespace Skb

/-- The segment `skb` carries the whole data of its buffers, which are as they
were in `M₀` up to their links. -/
structure Carries (M₀ M : MbufMem) (skb : Skb) (head : ℕ) : Prop where
  header : skb.headerMbuf = some head
  headroom_eq : skb.headroom = maxTcpHeader
  headApart : head ∉ skb.pages
  headCount : M.refcnt head = 1
  frags : skb.shinfo.frags = skb.pages.map (wholeFrag M₀)
  nodup : skb.pages.Nodup
  kept : ∀ p ∈ skb.pages, M.mbuf p = { M₀.mbuf p with next := none }
  inUse : ∀ p ∈ skb.pages, p ∉ M.puts
  inRange : ∀ p ∈ head :: skb.pages, p < M.size
  count : skb.pages.length ≤ maxSkbFrags

/-- A segment as `do_tcp_sendpages` leaves it in the write queue. -/
structure Built (M₀ M : MbufMem) (skb : Skb) (head : ℕ) : Prop extends
    Carries M₀ M skb head where
  nonempty : skb.pages ≠ []
  len_eq : skb.len = totalLen M₀ skb.pages
  dataLen_eq : skb.dataLen = skb.len
  endSeq_eq : skb.endSeq = seqAdd skb.seq skb.len
  cloned_eq : skb.cloned = false
  nohdr_eq : skb.nohdr = true
  dataref_eq : skb.shinfo.dataref = skbDatarefUnit + 1

/-- The segment being filled. -/
structure Filling (M₀ M : MbufMem) (copied : ℕ) (skb : Skb) (head : ℕ) : Prop extends
    Carries M₀ M skb head where
  room : skb.pages.length < maxSkbFrags
  copied_eq : copied = totalLen M₀ skb.pages
  len_zero : skb.len = 0
  dataLen_zero : skb.dataLen = 0
  cloned_eq : skb.cloned = false
  dataref_eq : skb.shinfo.dataref = 1

/-- A segment does not notice changes to other buffers. -/
theorem Carries.frame {M₀ M M' : MbufMem} {skb : Skb} {head : ℕ} (h : Carries M₀ M skb head)
    (hmbuf : ∀ p ∈ head :: skb.pages, M'.mbuf p = M.mbuf p)
    (hputs : ∀ p ∈ skb.pages, p ∉ M'.puts) (hsize : M'.size = M.size) :
    Carries M₀ M' skb head where
  header := h.header
  headroom_eq := h.headroom_eq
  headApart := h.headApart
  headCount := by
    rw [MbufMem.refcnt, hmbuf head (by simp)]
    exact h.headCount
  frags := h.frags
  nodup := h.nodup
  kept := fun p hp => by rw [hmbuf p (by simp [hp]), h.kept p hp]
  inUse := hputs
  inRange := fun p hp => by rw [hsize]; exact h.inRange p hp
  count := h.count

theorem Built.frame {M₀ M M' : MbufMem} {skb : Skb} {head : ℕ} (h : Built M₀ M skb head)
    (hmbuf : ∀ p ∈ head :: skb.pages, M'.mbuf p = M.mbuf p)
    (hputs : ∀ p ∈ skb.pages, p ∉ M'.puts) (hsize : M'.size = M.size) :
    Built M₀ M' skb head :=
  { h with toCarries := h.toCarries.frame hmbuf hputs hsize }

end Skb

namespace SendState

/-- The loop invariant with `ids` still to be sent. -/
structure LoopInv (M₀ : MbufMem) (ids : List ℕ) (s : SendState) : Prop where
  queued : ∀ skb ∈ s.queue,
    ∃ head, skb.Built M₀ s.mem head ∧ ∀ p ∈ head :: skb.pages, p ∉ ids
  filling : ∀ skb, s.skb = some skb →
    ∃ head, skb.Filling M₀ s.mem s.copied head ∧ ∀ p ∈ head :: skb.pages, p ∉ ids
  fresh : s.skb = none → s.copied = 0
  headersApart : ∀ h ∈ s.headers, h ∉ ids
  headersInRange : ∀ h ∈ s.headers, h < s.mem.size
  headersCount : ∀ h ∈ s.headers, s.mem.refcnt h = 1
  untouched : ∀ p ∈ ids, s.mem.mbuf p = M₀.mbuf p
  inUse : ∀ p ∈ ids, p ∉ s.mem.puts
  inRange : ∀ p ∈ ids, p < s.mem.size

variable {M₀ : MbufMem} {s s' : SendState} {skb : Skb} {mbuf : ℕ} {ids : List ℕ}

/-- An allocation leaves a segment to fill and the rest of the state as it was. -/
theorem LoopInv.alloc (hinv : LoopInv M₀ ids s) (halloc : s.alloc = some (skb, s')) :
    LoopInv M₀ ids s' ∧ s'.mem = s.mem ∧
      ∃ head, skb.Filling M₀ s'.mem s'.copied head ∧ ∀ p ∈ head :: skb.pages, p ∉ ids := by
  unfold SendState.alloc at halloc
  cases hskb : s.skb with
  | some current =>
      simp only [hskb, Option.some.injEq, Prod.mk.injEq] at halloc
      obtain ⟨rfl, rfl⟩ := halloc
      exact ⟨hinv, rfl, hinv.filling _ hskb⟩
  | none =>
      cases hheaders : s.headers with
      | nil => simp [hskb, hheaders] at halloc
      | cons header headers =>
          simp only [hskb, hheaders, Option.some.injEq, Prod.mk.injEq] at halloc
          obtain ⟨rfl, rfl⟩ := halloc
          have happart := hinv.headersApart header (by simp [hheaders])
          have hrange := hinv.headersInRange header (by simp [hheaders])
          have hcount := hinv.headersCount header (by simp [hheaders])
          refine ⟨{ hinv with filling := ?_, fresh := ?_, headersApart := ?_,
                              headersInRange := ?_, headersCount := ?_ }, rfl, header, ?_, ?_⟩
          · intro other hother
            simp at hother
          · exact fun _ => hinv.fresh hskb
          · intro h hh
            exact hinv.headersApart h (by simp [hheaders, hh])
          · intro h hh
            exact hinv.headersInRange h (by simp [hheaders, hh])
          · intro h hh
            exact hinv.headersCount h (by simp [hheaders, hh])
          · constructor
            · constructor <;> simp [skStreamAllocSkb, Skb.pages, hrange, hcount, maxSkbFrags]
            · simp [skStreamAllocSkb, Skb.pages, maxSkbFrags]
            · simpa [skStreamAllocSkb, Skb.pages, totalLen] using hinv.fresh hskb
            · rfl
            · rfl
            · rfl
            · rfl
          · simpa [skStreamAllocSkb, Skb.pages] using happart

/-- The segment with one more buffer, before it is closed. -/
def filledSkb (s : SendState) (skb : Skb) (mbuf : ℕ) : Skb :=
  { skb with shinfo.frags := skb.shinfo.frags ++
      [{ page := mbuf, pageOffset := 0, size := (s.mem.mbuf mbuf).dataLen }] }

theorem pages_filledSkb : (s.filledSkb skb mbuf).pages = skb.pages ++ [mbuf] := by
  simp [filledSkb, Skb.pages]

/-- Unlinking the buffer and adding it as a fragment. -/
theorem carries_filledSkb {head : ℕ} (hinv : LoopInv M₀ (mbuf :: ids) s)
    (hskb : skb.Filling M₀ s.mem s.copied head)
    (hapart : ∀ p ∈ head :: skb.pages, p ∉ mbuf :: ids) :
    (s.filledSkb skb mbuf).Carries M₀ (s.mem.setNext mbuf none) head := by
  have hmbuf : s.mem.mbuf mbuf = M₀.mbuf mbuf := hinv.untouched mbuf (by simp)
  have hnot : mbuf ∉ skb.pages := fun hmem => hapart mbuf (by simp [hmem]) (by simp)
  have hhead : head ≠ mbuf := fun heq => hapart head (by simp) (by simp [heq])
  constructor
  · exact hskb.header
  · exact hskb.headroom_eq
  · rw [pages_filledSkb]
    simp only [List.mem_append, List.mem_singleton, not_or]
    exact ⟨hskb.headApart, hhead⟩
  · rw [MbufMem.refcnt, MbufMem.setNext, MbufMem.modify_of_ne _ _ hhead]
    exact hskb.headCount
  · rw [pages_filledSkb]
    simp [filledSkb, hskb.frags, wholeFrag, hmbuf]
  · rw [pages_filledSkb]
    exact List.nodup_append.mpr ⟨hskb.nodup, List.nodup_singleton _, by
      intro p hp q hq heq
      simp only [List.mem_singleton] at hq
      exact hnot (hq ▸ heq ▸ hp)⟩
  · intro p hp
    rw [pages_filledSkb, List.mem_append, List.mem_singleton] at hp
    rcases hp with hold | rfl
    · have hne : p ≠ mbuf := fun heq => hnot (heq ▸ hold)
      rw [MbufMem.setNext, MbufMem.modify_of_ne _ _ hne, hskb.kept p hold]
    · rw [MbufMem.setNext, MbufMem.modify_self, hmbuf]
  · intro p hp
    rw [pages_filledSkb, List.mem_append, List.mem_singleton] at hp
    rcases hp with hold | rfl
    · exact hskb.inUse p hold
    · exact hinv.inUse p (by simp)
  · intro p hp
    rw [pages_filledSkb] at hp
    simp only [List.mem_cons, List.mem_append, List.not_mem_nil, or_false] at hp
    rcases hp with rfl | hold | rfl
    · exact hskb.inRange p (by simp)
    · exact hskb.inRange p (by simp [hold])
    · exact hinv.inRange p (by simp)
  · rw [pages_filledSkb]
    have hroom := hskb.room
    simp only [List.length_append, List.length_singleton]
    omega

/-- One round keeps the invariant. -/
theorem LoopInv.addMbuf {head : ℕ} (hinv : LoopInv M₀ (mbuf :: ids) s)
    (hnodup : (mbuf :: ids).Nodup) (hskb : skb.Filling M₀ s.mem s.copied head)
    (hapart : ∀ p ∈ head :: skb.pages, p ∉ mbuf :: ids) :
    LoopInv M₀ ids (s.addMbuf skb mbuf) := by
  have hmbuf : s.mem.mbuf mbuf = M₀.mbuf mbuf := hinv.untouched mbuf (by simp)
  have hcarries := carries_filledSkb hinv hskb hapart
  have hnot : mbuf ∉ ids := (List.nodup_cons.mp hnodup).1
  have hfilledApart : ∀ p ∈ head :: (s.filledSkb skb mbuf).pages, p ∉ ids := by
    intro p hp
    rw [pages_filledSkb] at hp
    simp only [List.mem_cons, List.mem_append, List.not_mem_nil, or_false] at hp
    rcases hp with rfl | hold | rfl
    · exact fun hmem => hapart p (by simp) (by simp [hmem])
    · exact fun hmem => hapart p (by simp [hold]) (by simp [hmem])
    · exact hnot
  have htotal : s.copied + (s.mem.mbuf mbuf).dataLen =
      totalLen M₀ (s.filledSkb skb mbuf).pages := by
    rw [pages_filledSkb, hskb.copied_eq, hmbuf]
    simp [totalLen, total]
  have hqueued : ∀ old ∈ s.queue,
      ∃ head, old.Built M₀ (s.mem.setNext mbuf none) head ∧
        ∀ p ∈ head :: old.pages, p ∉ ids := by
    intro old hold
    obtain ⟨oldHead, hbuilt, holdApart⟩ := hinv.queued old hold
    refine ⟨oldHead, hbuilt.frame ?_ hbuilt.inUse rfl, ?_⟩
    · intro p hp
      have hne : p ≠ mbuf := fun heq => holdApart p hp (by simp [heq])
      rw [MbufMem.setNext, MbufMem.modify_of_ne _ _ hne]
    · exact fun p hp hmem => holdApart p hp (by simp [hmem])
  have hrest : ∀ p ∈ ids, (s.mem.setNext mbuf none).mbuf p = M₀.mbuf p := by
    intro p hp
    have hne : p ≠ mbuf := fun heq => hnot (heq ▸ hp)
    rw [MbufMem.setNext, MbufMem.modify_of_ne _ _ hne]
    exact hinv.untouched p (by simp [hp])
  have hinUse : ∀ p ∈ ids, p ∉ (s.mem.setNext mbuf none).puts := fun p hp =>
    hinv.inUse p (by simp [hp])
  have hinRange : ∀ p ∈ ids, p < (s.mem.setNext mbuf none).size := fun p hp =>
    hinv.inRange p (by simp [hp])
  have hheaders : ∀ h ∈ s.headers, h ∉ ids := fun h hh hmem =>
    hinv.headersApart h hh (by simp [hmem])
  have hheadersCount : ∀ h ∈ s.headers, (s.mem.setNext mbuf none).refcnt h = 1 := by
    intro h hh
    have hne : h ≠ mbuf := fun heq => hinv.headersApart h hh (by simp [heq])
    rw [MbufMem.refcnt, MbufMem.setNext, MbufMem.modify_of_ne _ _ hne]
    exact hinv.headersCount h hh
  unfold SendState.addMbuf
  dsimp only
  split
  next =>
    -- The segment is closed and joins the queue.
    constructor
    · intro other hother
      simp only [SendState.entail, List.mem_append, List.mem_singleton] at hother
      rcases hother with hold | rfl
      · exact hqueued other hold
      · refine ⟨head, ?_, hfilledApart⟩
        constructor
        · exact { hcarries with }
        · show (s.filledSkb skb mbuf).pages ≠ []
          rw [pages_filledSkb]
          simp
        · show skb.len + (s.copied + _) = _
          rw [hskb.len_zero, Nat.zero_add]
          exact htotal
        · show skb.dataLen + (s.copied + _) = skb.len + (s.copied + _)
          rw [hskb.dataLen_zero, hskb.len_zero]
        · show seqAdd s.writeSeq (s.copied + _) = seqAdd s.writeSeq (skb.len + (s.copied + _))
          rw [hskb.len_zero, Nat.zero_add]
        · exact hskb.cloned_eq
        · rfl
        · show skb.shinfo.dataref + skbDatarefUnit = skbDatarefUnit + 1
          rw [hskb.dataref_eq, Int.add_comm]
    · intro other hother
      simp [SendState.entail] at hother
    · intro
      rfl
    · exact hheaders
    · exact hinv.headersInRange
    · exact hheadersCount
    · exact hrest
    · exact hinUse
    · exact hinRange
  next hopen =>
    simp only [not_or, Nat.not_le] at hopen
    constructor
    · exact hqueued
    · intro other hother
      simp only [Option.some.injEq] at hother
      subst hother
      refine ⟨head, ?_, hfilledApart⟩
      refine ⟨hcarries, ?_, htotal, hskb.len_zero, hskb.dataLen_zero, hskb.cloned_eq,
        hskb.dataref_eq⟩
      have hlength := hopen.1
      simpa [filledSkb, Skb.pages] using hlength
    · intro hnone
      simp at hnone
    · exact hheaders
    · exact hinv.headersInRange
    · exact hheadersCount
    · exact hrest
    · exact hinUse
    · exact hinRange

/-- The loop, by induction on the chain that is left. -/
theorem LoopInv.sendpagesLoop {p : Option ℕ} {fuel : ℕ} (hinv : LoopInv M₀ ids s)
    (hlinked : Linked s.mem.next p ids) (hfuel : ids.length ≤ fuel)
    (hfit : ids.length ≤ s.mem.size) :
    ∀ skb ∈ (sendpagesLoop fuel s p).queue,
      ∃ head, skb.Built M₀ (SendState.sendpagesLoop fuel s p).mem head := by
  induction ids generalizing fuel s p with
  | nil =>
      rw [Linked.nil_iff] at hlinked
      subst hlinked
      intro skb hskb
      have hqueue : skb ∈ s.queue := by cases fuel <;> exact hskb
      obtain ⟨head, hbuilt, -⟩ := hinv.queued skb hqueue
      cases fuel <;> exact ⟨head, hbuilt⟩
  | cons mbuf ids ih =>
      have hnodup := hlinked.nodup
      obtain ⟨rfl, htail⟩ := hlinked
      cases fuel with
      | zero => simp at hfuel
      | succ fuel =>
          rw [SendState.sendpagesLoop]
          cases halloc : s.alloc with
          | none =>
              intro skb hskb
              obtain ⟨head, hbuilt, hapart⟩ := hinv.queued skb hskb
              have hfree : s.mem.rtePktmbufFree (some mbuf) =
                  (mbuf :: ids).foldl MbufMem.rtePktmbufFreeSeg s.mem :=
                MbufMem.rtePktmbufFree_eq_foldl _ ⟨rfl, htail⟩ hfit
              refine ⟨head, hbuilt.frame ?_ ?_ ?_⟩
              · intro p hp
                dsimp only
                rw [hfree, MbufMem.mbuf_foldl_freeSeg_of_not_mem _ (hapart p hp)]
              · intro p hp
                dsimp only
                rw [hfree]
                exact MbufMem.not_mem_puts_foldl_freeSeg _ (hapart p (by simp [hp]))
                  (hbuilt.inUse p hp)
              · dsimp only
                rw [hfree, MbufMem.size_foldl_freeSeg]
          | some pair =>
              obtain ⟨skb, s'⟩ := pair
              obtain ⟨hinv', hmem, head, hfilling, hapart⟩ := hinv.alloc halloc
              have hnext := hinv'.addMbuf hnodup hfilling hapart
              have hstep : (s'.addMbuf skb mbuf).mem = s'.mem.setNext mbuf none := by
                unfold SendState.addMbuf
                dsimp only
                split <;> rfl
              apply ih hnext
              · rw [hstep, MbufMem.next_setNext, hmem]
                refine htail.congr fun x hx => Function.update_of_ne ?_ _ _
                rintro rfl
                exact (List.nodup_cons.mp hnodup).1 hx
              · simpa using hfuel
              · rw [hstep, hmem]
                simp only [List.length_cons] at hfit
                exact Nat.le_of_succ_le hfit

end SendState

/-- **What `do_tcp_sendpages` builds.**  Every segment it queues carries the
whole data of its buffers. -/
theorem doTcpSendpages_built {M : MbufMem} {headers : List ℕ} {writeSeq : ℕ}
    {first : Option ℕ} {ids : List ℕ} (hinput : SendInput M headers first ids) {skb : Skb}
    (hskb : skb ∈ (doTcpSendpages M headers writeSeq first).queue) :
    ∃ head, skb.Built M (doTcpSendpages M headers writeSeq first).mem head := by
  have hfit : ids.length ≤ M.size :=
    MbufMem.length_le_size hinput.distinct hinput.inRange
  have hinv : SendState.LoopInv M ids
      { mem := M, headers, writeSeq, queue := [], skb := none, copied := 0 } :=
    { queued := fun skb hskb => by simp at hskb
      filling := fun skb hskb => by simp at hskb
      fresh := fun _ => rfl
      headersApart := hinput.headersApart
      headersInRange := hinput.headersInRange
      headersCount := hinput.headersCount
      untouched := fun _ _ => rfl
      inUse := hinput.inUse
      inRange := hinput.inRange }
  exact hinv.sendpagesLoop hinput.linked hfit hfit skb hskb

end IpAugenblick
