/-
# Reference counts of transmit buffers

A segment in the write queue is transmitted any number of times and then
released; the frames it was sent in are freed by the port in between or
afterwards.  `txMachine` runs these events in any order that the code allows.

A transmission takes two references on every buffer, one in `__skb_clone` and one
in `dpdk_xmit_frame`, and the port gives one back.  The release gives back two,
one in `user_transmitted_callback` and one in `skb_release_data`.  Together with
the reference the buffer started with this comes out even for exactly one
transmission: a segment that was never sent is released once too often, and a
segment that was sent again leaks.
-/

import IpAugenblick.Lib.Machine
import IpAugenblick.Stack.Transmit

namespace IpAugenblick

open Lib

/-- A segment, the frames of it that the port still holds, and what happened. -/
structure TxState where
  mem : MbufMem
  skb : Skb
  /-- Heads of the frames handed to the port and not freed yet, oldest first. -/
  frames : List ℕ
  txs : ℕ
  freed : Bool

inductive TxStep
  | /-- `tcp_transmit_skb` with `hlen` bytes of headers. -/
    transmit (hlen : ℕ)
  | /-- The port, or `dpdk_dev_enqueue_for_tx` itself, frees a frame. -/
    nicFree
  | /-- `sk_wmem_free_skb`. -/
    release
  deriving DecidableEq, Repr

/-- All orders of the events: no transmission after the release, one free per frame.  The NIC
frees a frame when it has sent it, which may be after the acknowledgement and the release. -/
def txMachine (mem : MbufMem) (skb : Skb) : Machine TxState TxStep where
  init := { mem, skb, frames := [], txs := 0, freed := false }
  step s
    | .transmit hlen =>
        match s.freed, s.skb.headerMbuf with
        | false, some head =>
            let sent := tcpTransmitSkb s.mem s.skb hlen head
            some { s with
              mem := sent.1, skb := sent.2, frames := s.frames ++ [head], txs := s.txs + 1 }
        | _, _ => none
    | .nicFree =>
        match s.frames with
        | [] => none
        | head :: frames => some { s with mem := s.mem.rtePktmbufFree (some head), frames }
    | .release =>
        if s.freed then none
        else
          let released := skWmemFreeSkb s.mem s.skb
          some { s with mem := released.1, skb.shinfo := released.2, freed := true }

/-- The segment and all of its frames have been given back. -/
def TxState.Released (s : TxState) : Prop := s.freed = true ∧ s.frames = []

instance (s : TxState) : Decidable s.Released := inferInstanceAs (Decidable (_ ∧ _))

/-- What balanced counting means for the buffer `p` at one moment: the count is
not negative, it is zero exactly when the last holder is gone, and the buffer went
back to the pool once if so and never otherwise. -/
def TxState.Balanced (s : TxState) (p : ℕ) : Prop :=
  0 ≤ s.mem.refcnt p ∧ (s.mem.refcnt p = 0 ↔ s.Released) ∧
    s.mem.puts.count p = if s.Released then 1 else 0

/-- Every buffer of the segment is balanced after every prefix of a run. -/
def BalancedAlong (mem : MbufMem) (skb : Skb) (labels : List TxStep) : Prop :=
  ∀ p ∈ skb.pages, ∀ pre, pre <+: labels → ∀ s, (txMachine mem skb).run pre = some s →
    s.Balanced p

def transmissions (labels : List TxStep) : ℕ :=
  labels.countP fun
    | .transmit _ => true
    | _ => false

/-! ## What one event does -/

section Events

variable {M : MbufMem} {skb : Skb} {head : ℕ} {linked : Bool}

/-- The clone: one reference on the header buffer, and the fragments'. -/
theorem skbClone_mem (hheader : skb.headerMbuf = some head)
    (hthreaded : Threaded linked M skb.pages) (hsize : skb.pages.length ≤ M.size) :
    (skbClone M skb).1 = M.withRefcnt fun i =>
      M.refcnt i + (if i = head then 1 else 0) + gain linked skb.pages i := by
  have hupdate := M.rteMbufRefcntUpdate_eq head 1
  have hthreaded' : Threaded linked (M.rteMbufRefcntUpdate head 1) skb.pages := by
    apply hthreaded.congr
    intro p _
    rw [hupdate, MbufMem.next_withRefcnt]
  have hsize' : skb.shinfo.frags.length ≤ (M.rteMbufRefcntUpdate head 1).size := by
    simpa [Skb.pages] using hsize
  have hfrags := foldl_skbFragRef hthreaded' hsize'
  simp only [skbClone, hheader, hfrags]
  rw [hupdate, MbufMem.withRefcnt_withRefcnt, MbufMem.refcnt_withRefcnt]
  rfl

/-- **One transmission.**  The buffers end up linked behind the header buffer;
each gains what the clone and the driver take; nothing goes to the pool. -/
theorem tcpTransmitSkb_spec (hlen : ℕ) (hheader : skb.headerMbuf = some head)
    (hnodup : (head :: skb.pages).Nodup) (hthreaded : Threaded linked M skb.pages)
    (hsize : skb.pages.length ≤ M.size) (hdataref : skb.shinfo.dataref = skbDatarefUnit + 1) :
    (tcpTransmitSkb M skb hlen head).2 = { skb with cloned := true } ∧
      Linked (tcpTransmitSkb M skb hlen head).1.next (some head) (head :: skb.pages) ∧
      (tcpTransmitSkb M skb hlen head).1.size = M.size ∧
      (tcpTransmitSkb M skb hlen head).1.puts = M.puts ∧
      ∀ i, (tcpTransmitSkb M skb hlen head).1.refcnt i =
        M.refcnt i + (if i = head then 1 else 0) + 2 * gain linked skb.pages i := by
  have hframe := tcpTransmitSkb_frame M hlen hnodup hdataref
  refine ⟨hframe.same, hframe.linked, hframe.size, hframe.puts, ?_⟩
  intro i
  have hclone := skbClone_mem hheader hthreaded hsize
  have hthreadedN : Threaded linked
      ((skbClone M skb).1.modify head (headSetup skb hlen)) skb.pages := by
    apply hthreaded.congr
    intro p _
    rw [MbufMem.next_modify, hclone, MbufMem.next_withRefcnt]
    rfl
  have hsizeN : skb.shinfo.frags.length ≤
      ((skbClone M skb).1.modify head (headSetup skb hlen)).size := by
    rw [MbufMem.size_modify, hclone]
    show skb.shinfo.frags.length ≤ M.size
    simpa [Skb.pages] using hsize
  have hcounts := refcnt_linkFrags ((skbClone M skb).1.modify head (headSetup skb hlen)) head
    (((skbClone M skb).1.modify head (headSetup skb hlen)).mbuf head).dataLen hthreadedN hnodup
    hsizeN i
  rw [tcpTransmitSkb_eq M hlen hdataref]
  dsimp only
  rw [MbufMem.refcnt_modify, hcounts, MbufMem.refcnt_modify, hclone, MbufMem.refcnt_withRefcnt]
  · show _ + gain linked skb.pages i = _
    omega
  · exact fun _ => rfl
  · exact fun _ => rfl

theorem frags_skbReleaseData (M : MbufMem) (skb : Skb) :
    (skbReleaseData M skb).2.frags = skb.shinfo.frags := by
  unfold skbReleaseData
  dsimp only
  generalize (skb.shinfo.dataref - if skb.nohdr = true then skbDatarefUnit + 1 else 1) = left
  split <;> rfl

/-- The release of the last holder: every buffer twice, the header buffer once. -/
theorem skWmemFreeSkb_spec (hheader : skb.headerMbuf = some head) (hnohdr : skb.nohdr = true)
    (hdataref : skb.shinfo.dataref = skbDatarefUnit + 1) :
    (skWmemFreeSkb M skb).1 =
      (skb.pages ++ skb.pages ++ [head]).foldl MbufMem.rtePktmbufFreeSeg M := by
  have hunref : ∀ (frags : List Frag) (N : MbufMem), frags.foldl skbFragUnref N =
      (frags.map Frag.page).foldl MbufMem.rtePktmbufFreeSeg N := by
    intro frags N
    rw [List.foldl_map]
    rfl
  have hcallback : ∀ (frags : List Frag) (N : MbufMem), frags.foldl userTransmittedCallback N =
      (frags.map Frag.page).foldl MbufMem.rtePktmbufFreeSeg N := by
    intro frags N
    rw [List.foldl_map]
    rfl
  have hlast : (!skb.cloned ||
      decide (skb.shinfo.dataref - (skbDatarefUnit + 1) = 0)) = true := by
    simp [hdataref]
  simp only [skWmemFreeSkb, skbReleaseData, hnohdr, if_true, hlast, hheader]
  rw [hunref, hcallback, List.foldl_append, List.foldl_append]
  rfl

end Events

/-! ## The invariant -/

/-- One once the segment has been released, else zero. -/
def TxState.drops (s : TxState) : ℤ := if s.freed then 1 else 0

/-- References of a buffer that is not shared beyond its own fragment: the
initial one, two for each transmission, less the frames freed and the two drops of
the release. -/
def TxState.expected (s : TxState) : ℤ := 1 + s.txs + s.frames.length - 2 * s.drops

/-- The count of the first buffer is exact in every run; the others may have
more, since later transmissions walk the links that the first one left. -/
structure TxInv (head first : ℕ) (rest : List ℕ) (s : TxState) : Prop where
  header : s.skb.headerMbuf = some head
  pages : s.skb.pages = first :: rest
  nohdr : s.skb.nohdr = true
  dataref : s.freed = false → s.skb.shinfo.dataref = skbDatarefUnit + 1
  heads : ∀ h ∈ s.frames, h = head
  framesLe : s.frames.length ≤ s.txs
  fits : (head :: first :: rest).length ≤ s.mem.size
  headCount : s.mem.refcnt head = 1 + s.frames.length - s.drops
  firstCount : s.mem.refcnt first = s.expected
  lower : ∀ p ∈ first :: rest, s.expected ≤ s.mem.refcnt p
  exact : s.txs ≤ 1 → ∀ p ∈ first :: rest, s.mem.refcnt p = s.expected
  unlinked : s.txs = 0 → s.freed = false → ∀ p ∈ first :: rest, s.mem.next p = none
  linked : 0 < s.txs → (s.freed = false ∨ s.frames ≠ []) →
    Linked s.mem.next (some head) (head :: first :: rest)
  puts : ∀ p ∈ first :: rest, s.mem.PutsOk p

namespace TxInv

variable {mem : MbufMem} {skb : Skb} {head first : ℕ} {rest : List ℕ} {s t : TxState}

/-- Before the release the chains that `skb_frag_ref` walks are as `Threaded` says. -/
theorem threaded (hinv : TxInv head first rest s) (hlive : s.freed = false) :
    Threaded (decide (0 < s.txs)) s.mem (first :: rest) := by
  by_cases hsent : 0 < s.txs
  · have hlinked := hinv.linked hsent (.inl hlive)
    rw [decide_eq_true hsent]
    exact threaded_of_linked hlinked.2
  · rw [decide_eq_false hsent]
    apply threaded_of_unlinked
    exact hinv.unlinked (by omega) hlive

theorem transmit (hnodup : (head :: first :: rest).Nodup) (hinv : TxInv head first rest s)
    {hlen : ℕ} (hstep : (txMachine mem skb).step s (.transmit hlen) = some t) :
    TxInv head first rest t := by
  cases hlive : s.freed with
  | true => simp [txMachine, hlive] at hstep
  | false =>
      simp only [txMachine, hlive, hinv.header, Option.some.injEq] at hstep
      have hfits := hinv.fits
      have hsize : s.skb.pages.length ≤ s.mem.size := by
        rw [hinv.pages]
        simp only [List.length_cons] at hfits ⊢
        omega
      have hspec := tcpTransmitSkb_spec hlen hinv.header (by rw [hinv.pages]; exact hnodup)
        (by rw [hinv.pages]; exact hinv.threaded hlive) hsize (hinv.dataref hlive)
      obtain ⟨hskb, hlinked, hmem, hputs, hcounts⟩ := hspec
      rw [hinv.pages] at hlinked hcounts
      obtain ⟨hhead, hpages⟩ := List.nodup_cons.mp hnodup
      have hdrops : s.drops = 0 := by simp [TxState.drops, hlive]
      have hgainHead := gain_eq_zero (decide (0 < s.txs)) hhead
      have hgainFirst := gain_head (decide (0 < s.txs)) (List.nodup_cons.mp hpages).1
      have hexpected : t.expected = s.expected + 2 := by
        simp only [← hstep, TxState.expected, TxState.drops, hlive, List.length_append,
          List.length_singleton]
        push_cast
        omega
      have hcount : ∀ p ∈ first :: rest, t.mem.refcnt p =
          s.mem.refcnt p + 2 * gain (decide (0 < s.txs)) (first :: rest) p := by
        intro p hp
        have hne : p ≠ head := fun heq => hhead (heq ▸ hp)
        rw [← hstep]
        dsimp only
        rw [hcounts, if_neg hne]
        omega
      exact
        { header := by rw [← hstep]; dsimp only; rw [hskb]; exact hinv.header
          pages := by rw [← hstep]; dsimp only; rw [hskb]; exact hinv.pages
          nohdr := by rw [← hstep]; dsimp only; rw [hskb]; exact hinv.nohdr
          dataref := by
            intro _
            rw [← hstep]
            dsimp only
            rw [hskb]
            exact hinv.dataref hlive
          heads := by
            intro h hh
            rw [← hstep] at hh
            simp only [List.mem_append, List.mem_singleton] at hh
            rcases hh with hold | hnew
            · exact hinv.heads h hold
            · exact hnew
          framesLe := by
            have hle := hinv.framesLe
            rw [← hstep]
            simp only [List.length_append, List.length_singleton]
            omega
          fits := by rw [← hstep]; dsimp only; rw [hmem]; exact hfits
          headCount := by
            rw [← hstep]
            dsimp only
            rw [hcounts, if_pos rfl, hgainHead, hinv.headCount]
            simp only [TxState.drops, hlive, List.length_append, List.length_singleton]
            push_cast
            omega
          firstCount := by
            rw [hcount first (by simp), hgainFirst, hinv.firstCount, hexpected]
            omega
          lower := by
            intro p hp
            have hold := hinv.lower p hp
            have hgain := one_le_gain (decide (0 < s.txs)) hp
            rw [hcount p hp, hexpected]
            omega
          exact := by
            intro honce p hp
            have hnone : s.txs = 0 := by
              rw [← hstep] at honce
              dsimp only at honce
              omega
            have hold := hinv.exact (by omega) p hp
            have hgain := gain_unlinked hpages hp
            have hflag : decide (0 < s.txs) = false := by simp [hnone]
            rw [hcount p hp, hexpected, hflag, hgain, hold]
            omega
          unlinked := by
            intro hnone
            rw [← hstep] at hnone
            simp at hnone
          linked := by
            intro _ _
            rw [← hstep]
            exact hlinked
          puts := by
            intro p hp
            have hold := hinv.puts p hp
            have hlow := hinv.lower p hp
            have hgain := one_le_gain (decide (0 < s.txs)) hp
            have hlen := hinv.framesLe
            unfold MbufMem.PutsOk at hold ⊢
            have hpos : ¬ s.mem.refcnt p ≤ 0 := by
              simp only [TxState.expected, hdrops] at hlow
              omega
            have hpos' : ¬ t.mem.refcnt p ≤ 0 := by
              rw [hcount p hp]
              omega
            rw [if_neg hpos'] at ⊢
            rw [if_neg hpos] at hold
            rw [← hstep]
            dsimp only
            rw [hputs]
            exact hold }

/-- Drops that leave every buffer referenced leave the frame linked. -/
theorem linked_foldl_freeSeg (hinv : TxInv head first rest s) {ids : List ℕ}
    (hsent : 0 < s.txs) (hheld : s.freed = false ∨ s.frames ≠ [])
    (hpos : ∀ p ∈ head :: first :: rest, 1 ≤ s.mem.refcnt p - ids.count p) :
    Linked (ids.foldl MbufMem.rtePktmbufFreeSeg s.mem).next (some head)
      (head :: first :: rest) := by
  apply (hinv.linked hsent hheld).congr
  intro p hp
  exact s.mem.next_foldl_freeSeg_of_pos (hpos p hp)

theorem nicFree (hnodup : (head :: first :: rest).Nodup) (hinv : TxInv head first rest s)
    (hstep : (txMachine mem skb).step s .nicFree = some t) : TxInv head first rest t := by
  cases hframes : s.frames with
  | nil => simp [txMachine, hframes] at hstep
  | cons h frames =>
      obtain rfl : h = head := hinv.heads h (by simp [hframes])
      simp only [txMachine, hframes, Option.some.injEq] at hstep
      have hlength : s.frames.length = frames.length + 1 := by simp [hframes]
      have hheld : s.freed = false ∨ s.frames ≠ [] := .inr (by simp [hframes])
      have hsent : 0 < s.txs := by
        have hle := hinv.framesLe
        omega
      have hfree : s.mem.rtePktmbufFree (some h) =
          (h :: first :: rest).foldl MbufMem.rtePktmbufFreeSeg s.mem :=
        MbufMem.rtePktmbufFree_eq_foldl _ (hinv.linked hsent hheld) hinv.fits
      rw [hfree] at hstep
      have hcount : ∀ p ∈ h :: first :: rest, t.mem.refcnt p = s.mem.refcnt p - 1 := by
        intro p hp
        rw [← hstep, MbufMem.refcnt_foldl_freeSeg, List.count_eq_one_of_mem hnodup hp]
        rfl
      have hdrops : t.drops = s.drops := by rw [← hstep]; rfl
      have hexpected : t.expected = s.expected - 1 := by
        rw [TxState.expected, TxState.expected, hdrops, hlength, ← hstep]
        push_cast
        omega
      exact
        { header := by rw [← hstep]; exact hinv.header
          pages := by rw [← hstep]; exact hinv.pages
          nohdr := by rw [← hstep]; exact hinv.nohdr
          dataref := by rw [← hstep]; exact hinv.dataref
          heads := by
            intro g hg
            rw [← hstep] at hg
            exact hinv.heads g (by simp [hframes, show g ∈ frames from hg])
          framesLe := by
            have hle := hinv.framesLe
            rw [← hstep]
            dsimp only
            omega
          fits := by
            rw [← hstep, MbufMem.size_foldl_freeSeg]
            exact hinv.fits
          headCount := by
            rw [hcount h (by simp), hinv.headCount, hdrops, hlength, ← hstep]
            push_cast
            omega
          firstCount := by rw [hcount first (by simp), hinv.firstCount, hexpected]
          lower := by
            intro p hp
            have hold := hinv.lower p hp
            rw [hcount p (by simp only [List.mem_cons] at hp ⊢; exact .inr hp), hexpected]
            omega
          exact := by
            intro honce p hp
            have hold := hinv.exact (by rw [← hstep] at honce; exact honce) p hp
            rw [hcount p (by simp only [List.mem_cons] at hp ⊢; exact .inr hp), hexpected, hold]
          unlinked := by
            intro hnone
            rw [← hstep] at hnone
            dsimp only at hnone
            omega
          linked := by
            intro _ hstill
            rw [← hstep]
            apply hinv.linked_foldl_freeSeg hsent hheld
            have hleft : s.drops = 0 ∨ s.drops = 1 ∧ 0 < frames.length := by
              rw [← hstep] at hstill
              dsimp only at hstill
              rcases hstill with hlive | hmore
              · exact .inl (by simp [TxState.drops, hlive])
              · have hframesPos : 0 < frames.length := List.length_pos_iff.mpr hmore
                unfold TxState.drops
                split
                · exact .inr ⟨rfl, hframesPos⟩
                · exact .inl rfl
            intro p hp
            have hone : (h :: first :: rest).count p = 1 := List.count_eq_one_of_mem hnodup hp
            rw [hone]
            rcases List.mem_cons.mp hp with rfl | hpage
            · have hheadCount := hinv.headCount
              push_cast
              omega
            · have hlow := hinv.lower p hpage
              simp only [TxState.expected] at hlow
              push_cast
              omega
          puts := by
            intro p hp
            rw [← hstep]
            exact (hinv.puts p hp).foldl_freeSeg _ }

theorem release (hnodup : (head :: first :: rest).Nodup) (hinv : TxInv head first rest s)
    (hstep : (txMachine mem skb).step s .release = some t) : TxInv head first rest t := by
  cases hlive : s.freed with
  | true => simp [txMachine, hlive] at hstep
  | false =>
      simp only [txMachine, hlive, Bool.false_eq_true, if_false, Option.some.injEq] at hstep
      have hspec := skWmemFreeSkb_spec (M := s.mem) hinv.header hinv.nohdr (hinv.dataref hlive)
      rw [hinv.pages] at hspec
      rw [hspec] at hstep
      obtain ⟨hhead, hpages⟩ := List.nodup_cons.mp hnodup
      have hdropsBefore : s.drops = 0 := by simp [TxState.drops, hlive]
      have hdrops : t.drops = 1 := by rw [← hstep]; rfl
      have hexpected : t.expected = s.expected - 2 := by
        rw [TxState.expected, TxState.expected, hdrops, hdropsBefore, ← hstep]
        dsimp only
        omega
      have htwice : ∀ p ∈ first :: rest,
          ((first :: rest) ++ (first :: rest) ++ [head]).count p = 2 := by
        intro p hp
        have hone : (first :: rest).count p = 1 := List.count_eq_one_of_mem hpages hp
        have hne : ¬ head = p := fun heq => hhead (heq ▸ hp)
        rw [List.count_append, List.count_append, hone]
        simp [hne]
      have honce : ((first :: rest) ++ (first :: rest) ++ [head]).count head = 1 := by
        rw [List.count_append, List.count_append, List.count_eq_zero_of_not_mem hhead]
        simp
      have hcount : ∀ p ∈ first :: rest, t.mem.refcnt p = s.mem.refcnt p - 2 := by
        intro p hp
        rw [← hstep, MbufMem.refcnt_foldl_freeSeg, htwice p hp]
        rfl
      have hfrags : t.skb.shinfo.frags = s.skb.shinfo.frags := by
        rw [← hstep]
        exact frags_skbReleaseData _ s.skb
      exact
        { header := by rw [← hstep]; exact hinv.header
          pages := by rw [Skb.pages, hfrags]; exact hinv.pages
          nohdr := by rw [← hstep]; exact hinv.nohdr
          dataref := by
            intro hfalse
            rw [← hstep] at hfalse
            simp at hfalse
          heads := by rw [← hstep]; exact hinv.heads
          framesLe := by rw [← hstep]; exact hinv.framesLe
          fits := by
            rw [← hstep, MbufMem.size_foldl_freeSeg]
            exact hinv.fits
          headCount := by
            rw [hdrops, ← hstep, MbufMem.refcnt_foldl_freeSeg, honce, hinv.headCount,
              hdropsBefore]
            push_cast
            omega
          firstCount := by rw [hcount first (by simp), hinv.firstCount, hexpected]
          lower := by
            intro p hp
            have hold := hinv.lower p hp
            rw [hcount p hp, hexpected]
            omega
          exact := by
            intro honce p hp
            have hold := hinv.exact (by rw [← hstep] at honce; exact honce) p hp
            rw [hcount p hp, hexpected, hold]
          unlinked := by
            intro _ hfalse
            rw [← hstep] at hfalse
            simp at hfalse
          linked := by
            intro hsent hstill
            rw [← hstep] at hsent hstill ⊢
            simp only [Bool.true_eq_false, false_or] at hstill
            have hframesPos : 0 < s.frames.length := List.length_pos_iff.mpr hstill
            apply hinv.linked_foldl_freeSeg hsent (.inl hlive)
            intro p hp
            rcases List.mem_cons.mp hp with rfl | hpage
            · have hheadCount := hinv.headCount
              rw [honce]
              push_cast
              omega
            · have hlow := hinv.lower p hpage
              have hsent' : 0 < s.txs := hsent
              simp only [TxState.expected] at hlow
              rw [htwice p hpage]
              push_cast
              omega
          puts := by
            intro p hp
            rw [← hstep]
            exact (hinv.puts p hp).foldl_freeSeg _ }

theorem step (hnodup : (head :: first :: rest).Nodup) (label : TxStep)
    (hinv : TxInv head first rest s) (hstep : (txMachine mem skb).step s label = some t) :
    TxInv head first rest t := by
  cases label with
  | transmit hlen => exact hinv.transmit hnodup hstep
  | nicFree => exact hinv.nicFree hnodup hstep
  | release => exact hinv.release hnodup hstep

/-- A segment fresh from `do_tcp_sendpages` over buffers of count one. -/
theorem init {M₀ M : MbufMem} (hbuilt : skb.Built M₀ M head) (hpages : skb.pages = first :: rest)
    (hone : ∀ p ∈ skb.pages, M₀.refcnt p = 1) :
    TxInv head first rest (txMachine M skb).init := by
  have hkept : ∀ p ∈ first :: rest, M.refcnt p = 1 := by
    intro p hp
    rw [← hpages] at hp
    rw [MbufMem.refcnt, hbuilt.kept p hp]
    exact hone p hp
  have hnodup : (head :: skb.pages).Nodup := List.nodup_cons.mpr ⟨hbuilt.headApart, hbuilt.nodup⟩
  exact
    { header := hbuilt.header
      pages := hpages
      nohdr := hbuilt.nohdr_eq
      dataref := fun _ => hbuilt.dataref_eq
      heads := by
        intro h hh
        simp [txMachine] at hh
      framesLe := Nat.le_refl _
      fits := by
        rw [← hpages]
        exact MbufMem.length_le_size hnodup hbuilt.inRange
      headCount := hbuilt.headCount
      firstCount := hkept first (by simp)
      lower := by
        intro p hp
        exact Int.le_of_eq (hkept p hp).symm
      exact := fun _ => hkept
      unlinked := by
        intro _ _ p hp
        rw [← hpages] at hp
        show (M.mbuf p).next = none
        rw [hbuilt.kept p hp]
      linked := by
        intro hsent
        simp [txMachine] at hsent
      puts := by
        intro p hp
        have hcount := hkept p hp
        rw [← hpages] at hp
        show M.puts.count p = if M.refcnt p ≤ 0 then 1 else 0
        rw [hcount, List.count_eq_zero_of_not_mem (hbuilt.inUse p hp)]
        rfl }

/-- The invariant holds along every run. -/
theorem runFrom (hnodup : (head :: first :: rest).Nodup) (labels : List TxStep)
    (hinv : TxInv head first rest s) (hrun : (txMachine mem skb).runFrom s labels = some t) :
    TxInv head first rest t := by
  induction labels generalizing s with
  | nil =>
      simp only [Machine.runFrom_nil, Option.some.injEq] at hrun
      exact hrun ▸ hinv
  | cons label labels ih =>
      simp only [Machine.runFrom_cons, Option.bind_eq_some_iff] at hrun
      obtain ⟨middle, hstep, hrest⟩ := hrun
      exact ih (hinv.step hnodup label hstep) hrest

end TxInv

/-! ## Counting transmissions -/

/-- The state counts the transmissions of the run. -/
theorem txs_runFrom {mem : MbufMem} {skb : Skb} (labels : List TxStep) {s t : TxState}
    (hrun : (txMachine mem skb).runFrom s labels = some t) :
    t.txs = s.txs + transmissions labels := by
  induction labels generalizing s with
  | nil =>
      simp only [Machine.runFrom_nil, Option.some.injEq] at hrun
      simp [hrun, transmissions]
  | cons label labels ih =>
      simp only [Machine.runFrom_cons, Option.bind_eq_some_iff] at hrun
      obtain ⟨middle, hstep, hrest⟩ := hrun
      rw [ih hrest]
      cases label with
      | transmit hlen =>
          have hmiddle : middle.txs = s.txs + 1 := by
            simp only [txMachine] at hstep
            split at hstep
            · rw [← Option.some.inj hstep]
            · simp at hstep
          rw [hmiddle]
          simp only [transmissions, List.countP_cons, if_true]
          omega
      | nicFree =>
          have hmiddle : middle.txs = s.txs := by
            simp only [txMachine] at hstep
            split at hstep
            · simp at hstep
            · rw [← Option.some.inj hstep]
          rw [hmiddle]
          simp [transmissions]
      | release =>
          have hmiddle : middle.txs = s.txs := by
            simp only [txMachine] at hstep
            split at hstep
            · simp at hstep
            · rw [← Option.some.inj hstep]
          rw [hmiddle]
          simp [transmissions]

/-- After the release there are no more transmissions. -/
theorem txs_of_freed {mem : MbufMem} {skb : Skb} (labels : List TxStep) {s t : TxState}
    (hfreed : s.freed = true) (hrun : (txMachine mem skb).runFrom s labels = some t) :
    t.txs = s.txs := by
  induction labels generalizing s with
  | nil =>
      simp only [Machine.runFrom_nil, Option.some.injEq] at hrun
      rw [hrun]
  | cons label labels ih =>
      simp only [Machine.runFrom_cons, Option.bind_eq_some_iff] at hrun
      obtain ⟨middle, hstep, hrest⟩ := hrun
      cases label with
      | transmit hlen => simp [txMachine, hfreed] at hstep
      | nicFree =>
          simp only [txMachine] at hstep
          split at hstep
          · simp at hstep
          · have hmiddle := Option.some.inj hstep
            have htail := ih (s := middle) (by rw [← hmiddle]; exact hfreed) hrest
            rw [htail, ← hmiddle]
      | release => simp [txMachine, hfreed] at hstep

/-! ## Balance -/

/-- With one transmission in the whole run, every state on the way is balanced. -/
theorem TxInv.balanced {head first : ℕ} {rest : List ℕ} {s : TxState}
    (hinv : TxInv head first rest s) (honce : s.txs ≤ 1) (hsent : s.freed = true → s.txs = 1)
    {p : ℕ} (hp : p ∈ first :: rest) : s.Balanced p := by
  have hcount := hinv.exact honce p hp
  have hputs := hinv.puts p hp
  have hframes := hinv.framesLe
  have hreleased : s.mem.refcnt p = 0 ↔ s.Released := by
    rw [hcount]
    unfold TxState.Released TxState.expected TxState.drops
    cases hfreed : s.freed with
    | false => simp; omega
    | true =>
        have htx := hsent hfreed
        rw [← List.length_eq_zero_iff]
        simp only [if_true, true_and]
        omega
  have hnonneg : 0 ≤ s.mem.refcnt p := by
    rw [hcount]
    unfold TxState.expected TxState.drops
    cases hfreed : s.freed with
    | false => simp; omega
    | true =>
        have htx := hsent hfreed
        simp only [if_true]
        omega
  refine ⟨hnonneg, hreleased, ?_⟩
  have hzero : s.mem.refcnt p ≤ 0 ↔ s.Released := by
    rw [← hreleased]
    omega
  rw [hputs]
  simp only [hzero]

/-- **Balance of transmit references.**  In a run that gives back the segment
and all of its frames, the counts of its buffers are balanced at every moment
exactly when the segment was transmitted once. -/
theorem balancedAlong_iff_transmissions {M : MbufMem} {headers : List ℕ} {writeSeq : ℕ}
    {start : Option ℕ} {ids : List ℕ} (hinput : SendInput M headers start ids) {skb : Skb}
    (hskb : skb ∈ (doTcpSendpages M headers writeSeq start).queue)
    (hone : ∀ p ∈ skb.pages, M.refcnt p = 1) {labels : List TxStep} {final : TxState}
    (hrun : (txMachine (doTcpSendpages M headers writeSeq start).mem skb).run labels = some final)
    (hdone : final.Released) :
    BalancedAlong (doTcpSendpages M headers writeSeq start).mem skb labels ↔
      transmissions labels = 1 := by
  obtain ⟨head, hbuilt⟩ := doTcpSendpages_built hinput hskb
  obtain ⟨first, rest, hpages⟩ := List.exists_cons_of_ne_nil hbuilt.nonempty
  have hnodup : (head :: first :: rest).Nodup := by
    rw [← hpages]
    exact List.nodup_cons.mpr ⟨hbuilt.headApart, hbuilt.nodup⟩
  have hinit := TxInv.init hbuilt hpages hone
  have htxs := txs_runFrom labels hrun
  rw [show (txMachine (doTcpSendpages M headers writeSeq start).mem skb).init.txs = 0 from rfl,
    Nat.zero_add] at htxs
  constructor
  · intro hbalanced
    have hfinal := hinit.runFrom hnodup labels hrun
    have hfirst := hbalanced first (by simp [hpages]) labels (List.prefix_refl _) final hrun
    have hzero := hfirst.2.1.mpr hdone
    rw [hfinal.firstCount] at hzero
    unfold TxState.expected TxState.drops at hzero
    rw [hdone.1, hdone.2] at hzero
    simp only [if_true, List.length_nil] at hzero
    omega
  · intro honce p hp pre hpre s hs
    obtain ⟨suffix, rfl⟩ := hpre
    have hinv := hinit.runFrom hnodup pre hs
    have hsuffix : (txMachine (doTcpSendpages M headers writeSeq start).mem skb).runFrom s
        suffix = some final := by
      rw [Machine.run, Machine.runFrom_append] at hrun
      rw [Machine.run] at hs
      rw [hs] at hrun
      exact hrun
    have hgrows := txs_runFrom suffix hsuffix
    rw [hpages] at hp
    apply hinv.balanced _ _ hp
    · omega
    · intro hfreed
      have hkept := txs_of_freed suffix hfreed hsuffix
      omega

/-! ### Short segments -/

/-- Three fresh buffers of count one: a header buffer and a chain of two with a byte each. -/
def threeBuffers : MbufMem where
  mbuf i :=
    { dataOff := 128, dataLen := 1, pktLen := 1, nbSegs := 1,
      next := if i = 1 then some 2 else none, refcnt := 1, buf := fun _ => 0 }
  size := 3
  frees := []
  puts := []

/-- The segment that `do_tcp_sendpages` builds from the chain. -/
def twoByteSkb : Skb where
  headerMbuf := some 0
  headroom := maxTcpHeader
  len := 2
  dataLen := 2
  seq := 0
  endSeq := 2
  cloned := false
  nohdr := true
  shinfo :=
    { frags :=
        [{ page := 1, pageOffset := 0, size := 1 }, { page := 2, pageOffset := 0, size := 1 }]
      dataref := 65537 }

theorem sendInput_threeBuffers : SendInput threeBuffers [0] (some 1) [1, 2] where
  linked := ⟨rfl, rfl, rfl⟩
  distinct := by decide
  headersApart := by decide
  headersInRange := by decide
  headersCount := by
    intro h _
    rfl
  inRange := by decide
  inUse := by
    intro i _
    simp [threeBuffers]

theorem twoByteSkb_mem_queue :
    twoByteSkb ∈ (doTcpSendpages threeBuffers [0] 0 (some 1)).queue :=
  List.mem_singleton.mpr rfl

/-- Sent once and acknowledged, the segment of two fragments balances. -/
theorem balancedAlong_sent_once :
    BalancedAlong (doTcpSendpages threeBuffers [0] 0 (some 1)).mem twoByteSkb
      [.transmit 54, .nicFree, .release] := by
  have hone : ∀ p ∈ twoByteSkb.pages, threeBuffers.refcnt p = 1 := fun _ _ => rfl
  have hrun : (txMachine (doTcpSendpages threeBuffers [0] 0 (some 1)).mem twoByteSkb).run
      [.transmit 54, .nicFree, .release] = some _ := rfl
  exact (balancedAlong_iff_transmissions sendInput_threeBuffers twoByteSkb_mem_queue hone hrun
    ⟨rfl, rfl⟩).mpr rfl

/-- Two fresh buffers of count one: a header buffer and one byte of data. -/
def twoBuffers : MbufMem where
  mbuf _ :=
    { dataOff := 128, dataLen := 1, pktLen := 1, nbSegs := 1, next := none, refcnt := 1,
      buf := fun _ => 0 }
  size := 2
  frees := []
  puts := []

/-- The segment that `do_tcp_sendpages` builds from the second of them. -/
def oneByteSkb : Skb where
  headerMbuf := some 0
  headroom := maxTcpHeader
  len := 1
  dataLen := 1
  seq := 0
  endSeq := 1
  cloned := false
  nohdr := true
  shinfo := { frags := [{ page := 1, pageOffset := 0, size := 1 }], dataref := 65537 }

theorem oneByteSkb_mem_queue :
    oneByteSkb ∈ (doTcpSendpages twoBuffers [0] 0 (some 1)).queue :=
  List.mem_singleton.mpr rfl

/-- Purged before it was ever sent, the segment drops its buffer once too often. -/
theorem not_balancedAlong_purged :
    oneByteSkb ∈ (doTcpSendpages twoBuffers [0] 0 (some 1)).queue ∧
      (∃ final, (txMachine (doTcpSendpages twoBuffers [0] 0 (some 1)).mem oneByteSkb).run
        [.release] = some final ∧ final.Released ∧ final.mem.refcnt 1 = -1) ∧
      ¬ BalancedAlong (doTcpSendpages twoBuffers [0] 0 (some 1)).mem oneByteSkb [.release] := by
  have hcount : ∀ final, (txMachine (doTcpSendpages twoBuffers [0] 0 (some 1)).mem
      oneByteSkb).run [.release] = some final → final.mem.refcnt 1 = -1 := by
    intro final hrun
    rw [← Option.some.inj hrun]
    decide
  refine ⟨oneByteSkb_mem_queue, ⟨_, rfl, ⟨rfl, rfl⟩, hcount _ rfl⟩, ?_⟩
  intro hbalanced
  have hnonneg := (hbalanced 1 (by decide) [.release] (List.prefix_refl _) _ rfl).1
  rw [hcount _ rfl] at hnonneg
  exact absurd hnonneg (by decide)

end IpAugenblick
