/-
# Segments as windows of the stream

The fragments of a segment cover a stretch of the bytes that the application
sent: each is a window of one buffer, and the windows follow each other.  Cutting
a segment cuts the stretch, trimming it moves the start, and what TCP believes a
segment to hold, the windows of its fragments, is always that stretch.

A stretch between two buffers is one whose fragments are whole buffers; this is
the only kind on which counting buffers and counting bytes agree.
-/

import IpAugenblick.Stack.Transmit

namespace IpAugenblick

open Lib

/-- The bytes of the segment as TCP sees them: the window of every fragment. -/
def fragBytes (M : MbufMem) (frags : List Frag) : List UInt8 :=
  frags.flatMap fun f => (M.mbuf f.page).slice ((M.mbuf f.page).dataOff + f.pageOffset) f.size

/-! ## Windows of the stream -/

section Windows

variable (M₀ : MbufMem) (pages : List ℕ)

def streamOf : List UInt8 := pages.flatMap fun p => (M₀.mbuf p).data

/-- A stretch of them. -/
def streamBytes (lo hi : ℕ) : List UInt8 := ((streamOf M₀ pages).drop lo).take (hi - lo)

/-- Where the data of buffer `p` starts in the stream. -/
def pagePos (p : ℕ) : ℕ := position (fun p => (M₀.mbuf p).dataLen) pages p

/-- An offset between two buffers of the stream. -/
def OnBoundary (n : ℕ) : Prop := Boundary (fun p => (M₀.mbuf p).dataLen) pages n

/-- The fragments cover the stream from `lo` to `hi`.  Only a buffer without
data makes an empty fragment. -/
def Cover : List Frag → ℕ → ℕ → Prop
  | [], lo, hi => lo = hi
  | f :: fs, lo, hi =>
      f.page ∈ pages ∧ pagePos M₀ pages f.page + f.pageOffset = lo ∧
        f.pageOffset + f.size ≤ (M₀.mbuf f.page).dataLen ∧
        (f.size = 0 → (M₀.mbuf f.page).dataLen = 0) ∧ Cover fs (lo + f.size) hi

variable {M₀ pages} {M : MbufMem} {frags : List Frag} {lo hi : ℕ}

theorem Cover.le (h : Cover M₀ pages frags lo hi) : lo ≤ hi := by
  induction frags generalizing lo with
  | nil => exact Nat.le_of_eq h
  | cons f fs ih =>
      have htail := ih h.2.2.2.2
      omega

theorem Cover.le_total (h : Cover M₀ pages frags lo hi)
    (hne : frags ≠ [] ∨ lo ≤ totalLen M₀ pages) :
    hi ≤ totalLen M₀ pages := by
  induction frags generalizing lo with
  | nil =>
      have heq : lo = hi := h
      simpa [heq] using hne
  | cons f fs ih =>
      obtain ⟨hpage, hlo, hfit, -, htail⟩ := h
      apply ih htail
      have hend : pagePos M₀ pages f.page + (M₀.mbuf f.page).dataLen ≤ totalLen M₀ pages :=
        position_add_len_le_total hpage
      exact .inr (by omega)

/-- The loop leaves alone what lies behind the cut. -/
theorem splitFrags_of_lt (len : ℕ) (M : MbufMem) {pos : ℕ} (hpos : len < pos) :
    splitFrags len M pos frags = (M, [], frags) := by
  induction frags generalizing pos with
  | nil => rfl
  | cons f fs ih =>
      have hacross : len < pos + f.size := by omega
      have hbehind : ¬ pos < len := by omega
      rw [splitFrags, if_pos hacross, if_neg hbehind, ih (by omega)]

/-- A cut at `len` bytes into the segment cuts the window there. -/
theorem Cover.splitFrags (len : ℕ) (M : MbufMem) {pos base : ℕ}
    (h : Cover M₀ pages frags lo hi) (hbase : base + pos = lo) (hpos : pos ≤ len)
    (hcut : base + len ≤ hi) :
    Cover M₀ pages (splitFrags len M pos frags).2.1 lo (base + len) ∧
      Cover M₀ pages (splitFrags len M pos frags).2.2 (base + len) hi := by
  induction frags generalizing lo pos M with
  | nil =>
      have heq : lo = hi := h
      have hend : base + len = lo := by omega
      exact ⟨hend.symm, by rw [hend]; exact heq⟩
  | cons f fs ih =>
      obtain ⟨hpage, hlo, hfit, hempty, htail⟩ := h
      rw [IpAugenblick.splitFrags]
      by_cases hacross : len < pos + f.size
      · by_cases hinside : pos < len
        · rw [if_pos hacross, if_pos hinside, splitFrags_of_lt len _ (by omega)]
          refine ⟨⟨hpage, hlo, ?_, ?_, ?_⟩, hpage, ?_, ?_, ?_, ?_⟩
          · dsimp only
            omega
          · dsimp only
            omega
          · show lo + (len - pos) = base + len
            omega
          · dsimp only
            omega
          · dsimp only
            omega
          · dsimp only
            omega
          · have hnext : base + len + (f.size - (len - pos)) = lo + f.size := by omega
            dsimp only
            rw [hnext]
            exact htail
        · rw [if_pos hacross, if_neg hinside, splitFrags_of_lt len _ (by omega)]
          have hend : base + len = lo := by omega
          rw [hend]
          exact ⟨rfl, hpage, hlo, hfit, hempty, htail⟩
      · rw [if_neg hacross]
        have hrest := ih M htail (show base + (pos + f.size) = lo + f.size by omega) (by omega)
        exact ⟨⟨hpage, hlo, hfit, hempty, hrest.1⟩, hrest.2⟩

/-- A trim of `eat` bytes moves the start of the window. -/
theorem Cover.trimFrags (M : MbufMem) {eat : ℕ} (h : Cover M₀ pages frags lo hi)
    (heat : lo + eat ≤ hi) : Cover M₀ pages (trimFrags M eat frags).2 (lo + eat) hi := by
  induction frags generalizing lo eat M with
  | nil =>
      have heq : lo = hi := h
      show lo + eat = hi
      omega
  | cons f fs ih =>
      obtain ⟨hpage, hlo, hfit, hempty, htail⟩ := h
      rw [IpAugenblick.trimFrags]
      by_cases hall : f.size ≤ eat
      · rw [if_pos hall]
        have hrest := ih (skbFragUnref M f) htail
          (show lo + f.size + (eat - f.size) ≤ hi by omega)
        have hstart : lo + f.size + (eat - f.size) = lo + eat := by omega
        rwa [hstart] at hrest
      · rw [if_neg hall]
        have hrest := ih M htail (show lo + f.size + 0 ≤ hi from htail.le)
        refine ⟨hpage, ?_, ?_, ?_, ?_⟩
        · dsimp only
          omega
        · dsimp only
          omega
        · dsimp only
          omega
        · have hnext : lo + eat + (f.size - eat) = lo + f.size + 0 := by omega
          dsimp only
          rw [hnext]
          exact hrest

theorem pages_splitFrags (len : ℕ) (M : MbufMem) (pos : ℕ) (frags : List Frag) :
    ((splitFrags len M pos frags).2.1.map Frag.page).Sublist (frags.map Frag.page) ∧
      ((splitFrags len M pos frags).2.2.map Frag.page).Sublist (frags.map Frag.page) := by
  induction frags generalizing M pos with
  | nil => exact ⟨List.Sublist.refl _, List.Sublist.refl _⟩
  | cons f fs ih =>
      rw [splitFrags]
      split
      · split
        · have hrest := ih (skbFragRef M f) (pos + f.size)
          exact ⟨hrest.1.cons_cons f.page, hrest.2.cons_cons f.page⟩
        · have hrest := ih M (pos + f.size)
          exact ⟨hrest.1.cons f.page, hrest.2.cons_cons f.page⟩
      · have hrest := ih M (pos + f.size)
        exact ⟨hrest.1.cons_cons f.page, hrest.2.cons f.page⟩

theorem pages_trimFrags (M : MbufMem) (eat : ℕ) (frags : List Frag) :
    ((trimFrags M eat frags).2.map Frag.page).Sublist (frags.map Frag.page) := by
  induction frags generalizing M eat with
  | nil => exact List.Sublist.refl _
  | cons f fs ih =>
      rw [trimFrags]
      split
      · exact (ih _ _).cons f.page
      · exact (ih M 0).cons_cons f.page

/-- A cut changes nothing but counts. -/
theorem splitFrags_counts (len : ℕ) (M : MbufMem) (pos : ℕ) (frags : List Frag) :
    ∃ r, (splitFrags len M pos frags).1 = M.withRefcnt r := by
  induction frags generalizing M pos with
  | nil => exact ⟨M.refcnt, rfl⟩
  | cons f fs ih =>
      rw [splitFrags]
      split
      · split
        · obtain ⟨r, hr⟩ := skbFragRef_counts M f
          obtain ⟨r', hr'⟩ := ih (skbFragRef M f) (pos + f.size)
          refine ⟨r', ?_⟩
          dsimp only
          rw [hr', hr, MbufMem.withRefcnt_withRefcnt]
        · exact ih M (pos + f.size)
      · exact ih M (pos + f.size)

theorem cores_trimFrags (M : MbufMem) (eat : ℕ) (frags : List Frag) :
    (trimFrags M eat frags).1.cores = M.cores := by
  induction frags generalizing M eat with
  | nil => rfl
  | cons f fs ih =>
      rw [trimFrags]
      split
      · exact (ih _ _).trans (MbufMem.cores_rtePktmbufFreeSeg M f.page)
      · exact ih M 0

theorem size_trimFrags (M : MbufMem) (eat : ℕ) (frags : List Frag) :
    (trimFrags M eat frags).1.size = M.size := by
  induction frags generalizing M eat with
  | nil => rfl
  | cons f fs ih =>
      rw [trimFrags]
      split
      · rw [ih, skbFragUnref, MbufMem.size_rtePktmbufFreeSeg]
      · exact ih M 0

theorem next_trimFrags (M : MbufMem) (eat : ℕ) {frags : List Frag} {i : ℕ}
    (hi : i ∉ frags.map Frag.page) : (trimFrags M eat frags).1.next i = M.next i := by
  induction frags generalizing M eat with
  | nil => rfl
  | cons f fs ih =>
      simp only [List.map_cons, List.mem_cons, not_or] at hi
      rw [trimFrags]
      split
      · rw [ih _ _ hi.2, skbFragUnref, MbufMem.next_rtePktmbufFreeSeg_of_ne _ _ _ hi.1]
      · exact ih M 0 hi.2

/-! ### Whole buffers -/

/-- The fragments cover the whole data of their buffers. -/
def Whole (M₀ : MbufMem) (frags : List Frag) : Prop :=
  ∀ f ∈ frags, f = wholeFrag M₀ f.page

theorem eq_wholeFrag {f : Frag} (hoff : f.pageOffset = 0)
    (hsize : f.size = (M₀.mbuf f.page).dataLen) : f = wholeFrag M₀ f.page := by
  rw [wholeFrag, ← hoff, ← hsize]

/-- Between two boundaries every fragment is whole.  A fragment that is not
would start or end strictly inside its buffer; the window starts and ends at a
boundary, and the next fragment belongs to another buffer. -/
theorem Cover.whole_of_boundary (h : Cover M₀ pages frags lo hi)
    (hnodup : (frags.map Frag.page).Nodup) (hlo : OnBoundary M₀ pages lo)
    (hhi : OnBoundary M₀ pages hi) : Whole M₀ frags := by
  induction frags generalizing lo with
  | nil =>
      intro f hf
      simp at hf
  | cons f fs ih =>
      obtain ⟨hpage, hstart, hfit, hempty, htail⟩ := h
      obtain ⟨hfresh, hrest⟩ := List.nodup_cons.mp hnodup
      unfold pagePos at hstart
      have hoffset : f.size = 0 ∨ f.pageOffset = 0 := by
        by_contra hcontra
        rw [not_or] at hcontra
        exact not_boundary_of_inside hpage (by omega) (by omega) hlo
      have hzero : f.pageOffset = 0 := by
        rcases hoffset with hsize | hoff
        · have hnone := hempty hsize
          omega
        · exact hoff
      have hfull : f.size = (M₀.mbuf f.page).dataLen := by
        by_contra hpartial
        have hpos : 0 < f.size := by
          by_contra hnone
          have hsize : f.size = 0 := by omega
          exact hpartial (by rw [hsize, hempty hsize])
        have hinside : ¬ OnBoundary M₀ pages (lo + f.size) :=
          not_boundary_of_inside hpage (by omega) (by omega)
        cases fs with
        | nil =>
            have hend : lo + f.size = hi := htail
            exact hinside (hend ▸ hhi)
        | cons g gs =>
            obtain ⟨hgpage, hgstart, hgfit, hgempty, -⟩ := htail
            unfold pagePos at hgstart
            by_cases hgsize : g.size = 0
            · have hgoff : g.pageOffset = 0 := by
                have hnone := hgempty hgsize
                omega
              apply hinside
              rw [← hgstart, hgoff]
              exact boundary_position hgpage
            · have hlow : position (fun p => (M₀.mbuf p).dataLen) pages f.page ≤ lo + f.size := by
                omega
              have hglow : position (fun p => (M₀.mbuf p).dataLen) pages g.page ≤ lo + f.size := by
                omega
              have hsame : f.page = g.page :=
                eq_of_inside hpage hgpage hlow (by omega) hglow (by omega)
              exact hfresh (by simp [hsame])
      have hnext : OnBoundary M₀ pages (lo + f.size) := by
        have hplace : lo + f.size =
            position (fun p => (M₀.mbuf p).dataLen) pages f.page + (M₀.mbuf f.page).dataLen := by
          omega
        rw [hplace]
        exact boundary_position_add_len hpage
      intro g hg
      rcases List.mem_cons.mp hg with rfl | hmem
      · exact eq_wholeFrag hzero hfull
      · exact ih htail hrest hnext g hmem

/-- Whole fragments start and end at boundaries. -/
theorem Cover.boundary_of_whole (h : Cover M₀ pages frags lo hi) (hwhole : Whole M₀ frags)
    (hlo : frags = [] → OnBoundary M₀ pages lo) :
    OnBoundary M₀ pages lo ∧ OnBoundary M₀ pages hi := by
  induction frags generalizing lo with
  | nil =>
      have heq : lo = hi := h
      exact ⟨hlo rfl, heq ▸ hlo rfl⟩
  | cons f fs ih =>
      obtain ⟨hpage, hstart, hfit, hempty, htail⟩ := h
      have hf := hwhole f (by simp)
      have hoff : f.pageOffset = 0 := congrArg Frag.pageOffset hf
      have hsize : f.size = (M₀.mbuf f.page).dataLen := congrArg Frag.size hf
      unfold pagePos at hstart
      have hend : OnBoundary M₀ pages (lo + f.size) := by
        rw [← hstart, hoff, hsize]
        exact boundary_position_add_len hpage
      refine ⟨?_, (ih htail (fun g hg => hwhole g (by simp [hg])) fun _ => hend).2⟩
      rw [← hstart, hoff]
      exact boundary_position hpage

theorem Cover.length_eq (h : Cover M₀ pages frags lo hi) :
    lo + (frags.map Frag.size).sum = hi := by
  induction frags generalizing lo with
  | nil =>
      have heq : lo = hi := h
      simpa using heq
  | cons f fs ih =>
      have htail := ih h.2.2.2.2
      simp only [List.map_cons, List.sum_cons]
      omega

/-- The buffers of the fragments hold at least the window, and no more only if
every fragment is whole. -/
theorem Cover.whole_of_total (h : Cover M₀ pages frags lo hi)
    (htotal : lo + totalLen M₀ (frags.map Frag.page) ≤ hi) : Whole M₀ frags := by
  have hbound : ∀ {fs : List Frag} {lo : ℕ}, Cover M₀ pages fs lo hi →
      hi ≤ lo + totalLen M₀ (fs.map Frag.page) := by
    intro fs
    induction fs with
    | nil =>
        intro lo hcover
        have heq : lo = hi := hcover
        omega
    | cons f fs ih =>
        intro lo hcover
        have htail := ih hcover.2.2.2.2
        have hfit := hcover.2.2.1
        simp only [totalLen, List.map_cons, total_cons] at htail ⊢
        omega
  induction frags generalizing lo with
  | nil =>
      intro f hf
      simp at hf
  | cons f fs ih =>
      obtain ⟨hpage, hstart, hfit, hempty, htail⟩ := h
      have hrest := hbound htail
      simp only [totalLen, List.map_cons, total_cons] at htotal hrest
      have hfull : f.size = (M₀.mbuf f.page).dataLen := by omega
      have hoff : f.pageOffset = 0 := by omega
      intro g hg
      rcases List.mem_cons.mp hg with rfl | hmem
      · exact eq_wholeFrag hoff hfull
      · apply ih htail _ g hmem
        simp only [totalLen]
        omega

/-- A window without bytes has only fragments of buffers without data. -/
theorem Cover.whole_of_empty (h : Cover M₀ pages frags lo lo) : Whole M₀ frags := by
  have hsum := h.length_eq
  have hcover : ∀ {fs : List Frag} {lo hi : ℕ}, Cover M₀ pages fs lo hi →
      (fs.map Frag.size).sum = 0 → Whole M₀ fs := by
    intro fs
    induction fs with
    | nil =>
        intro lo hi _ _ f hf
        simp at hf
    | cons f fs ih =>
        intro lo hi hc hzero
        obtain ⟨-, -, hfit, hempty, htail⟩ := hc
        simp only [List.map_cons, List.sum_cons] at hzero
        have hsize : f.size = 0 := by omega
        have hlen := hempty hsize
        have hoff : f.pageOffset = 0 := by omega
        intro g hg
        rcases List.mem_cons.mp hg with rfl | hmem
        · exact eq_wholeFrag hoff (by omega)
        · exact ih htail (by omega) g hmem
  exact hcover h (by omega)

theorem Whole.totalLen_eq (hwhole : Whole M₀ frags) :
    totalLen M₀ (frags.map Frag.page) = (frags.map Frag.size).sum := by
  unfold totalLen total
  rw [List.map_map]
  congr 1
  apply List.map_congr_left
  intro f hf
  rw [hwhole f hf]
  rfl

/-- TCP's own view is right whatever the cuts were: the windows of the
fragments are the stretch of the stream. -/
theorem Cover.fragBytes_eq (h : Cover M₀ pages frags lo hi) :
    fragBytes M₀ frags = streamBytes M₀ pages lo hi := by
  induction frags generalizing lo with
  | nil =>
      have heq : lo = hi := h
      simp [fragBytes, streamBytes, heq]
  | cons f fs ih =>
      obtain ⟨hpage, hstart, hfit, hempty, htail⟩ := h
      have hle := htail.le
      have hwindow : ((streamOf M₀ pages).drop (pagePos M₀ pages f.page + f.pageOffset)).take
          f.size = ((M₀.mbuf f.page).data.drop f.pageOffset).take f.size :=
        flatMap_window (fun p => Mbuf.length_data _) hpage hfit
      have hslice : (M₀.mbuf f.page).slice ((M₀.mbuf f.page).dataOff + f.pageOffset) f.size =
          ((streamOf M₀ pages).drop lo).take f.size := by
        rw [Mbuf.slice_eq_window _ hfit, ← hwindow, ← hstart]
      have hsplit : hi - lo = f.size + (hi - (lo + f.size)) := by omega
      have hrest := ih htail
      unfold fragBytes at hrest ⊢
      rw [List.flatMap_cons, hrest, hslice]
      unfold streamBytes
      rw [hsplit, List.take_add, List.drop_drop]

theorem length_fragBytes : (fragBytes M₀ frags).length = (frags.map Frag.size).sum := by
  rw [fragBytes, List.length_flatMap]
  simp

theorem Whole.fragBytes_eq (hwhole : Whole M₀ frags) :
    fragBytes M₀ frags = (frags.map Frag.page).flatMap fun p => (M₀.mbuf p).data := by
  unfold fragBytes
  rw [List.flatMap_map]
  apply List.flatMap_congr
  intro f hf
  rw [hwhole f hf]
  rfl

end Windows

/-- The fragments of a built segment cover its buffers from end to end. -/
theorem cover_wholeFrags (M₀ : MbufMem) {pre post : List ℕ} (hnodup : (pre ++ post).Nodup) :
    Cover M₀ (pre ++ post) (post.map (wholeFrag M₀)) (totalLen M₀ pre)
      (totalLen M₀ (pre ++ post)) := by
  induction post generalizing pre with
  | nil =>
      show totalLen M₀ pre = totalLen M₀ (pre ++ [])
      rw [List.append_nil]
  | cons p post ih =>
      have hfresh : p ∉ pre := by
        intro hmem
        exact (List.nodup_append.mp hnodup).2.2 p hmem p (by simp) rfl
      have hsplit : pre ++ p :: post = (pre ++ [p]) ++ post := by simp
      have hrest := ih (show ((pre ++ [p]) ++ post).Nodup by rw [← hsplit]; exact hnodup)
      refine ⟨by simp [wholeFrag], ?_, ?_, ?_, ?_⟩
      · show position _ (pre ++ p :: post) p + 0 = _
        rw [position_append_cons hfresh]
        rfl
      · show 0 + _ ≤ _
        rw [Nat.zero_add]
        exact Nat.le_refl _
      · exact fun hsize => hsize
      · rw [← hsplit] at hrest
        have hstart : totalLen M₀ (pre ++ [p]) = totalLen M₀ pre + (wholeFrag M₀ p).size := by
          unfold totalLen
          rw [total_append, total_cons, total_nil]
          rfl
        rw [← hstart]
        exact hrest

/-! ## Segments -/

/-- Offset of a sequence number from the start of the stream. -/
def seqOffset (seq₀ seq : ℕ) : ℕ := (seq + 2 ^ 32 - seq₀ % 2 ^ 32) % 2 ^ 32

theorem seqOffset_self (seq : ℕ) : seqOffset seq seq = 0 := by
  unfold seqOffset
  omega

theorem seqOffset_seqAdd (seq₀ seq n : ℕ) (hfit : seqOffset seq₀ seq + n < 2 ^ 32) :
    seqOffset seq₀ (seqAdd seq n) = seqOffset seq₀ seq + n := by
  unfold seqOffset seqAdd at *
  omega

/-- What is true of every segment cut from the one that was built. -/
structure Segment (M₀ : MbufMem) (pages : List ℕ) (seq₀ : ℕ) (skb : Skb) : Prop where
  cover : Cover M₀ pages skb.shinfo.frags (seqOffset seq₀ skb.seq) (seqOffset seq₀ skb.endSeq)
  sublist : skb.pages.Sublist pages
  bound : seqOffset seq₀ skb.endSeq ≤ totalLen M₀ pages
  len_eq : seqOffset seq₀ skb.seq + skb.len = seqOffset seq₀ skb.endSeq
  dataLen_eq : skb.dataLen = skb.len
  headroom_eq : skb.headroom = maxTcpHeader
  dataref_eq : skb.shinfo.dataref = skbDatarefUnit + 1

namespace Segment

variable {M₀ M : MbufMem} {pages : List ℕ} {seq₀ : ℕ} {skb : Skb}

theorem skbHeadlen_eq (h : Segment M₀ pages seq₀ skb) : skb.skbHeadlen = 0 := by
  rw [Skb.skbHeadlen, h.dataLen_eq, Nat.sub_self]

/-- Both halves of a cut. -/
theorem tcpFragment (h : Segment M₀ pages seq₀ skb) (hsmall : totalLen M₀ pages < 2 ^ 32)
    {len header : ℕ} (hlen : len < skb.len) {M' : MbufMem} {skb' buff : Skb}
    (hcut : tcpFragment M skb len header = some (M', skb', buff)) :
    Segment M₀ pages seq₀ skb' ∧ Segment M₀ pages seq₀ buff ∧
      skb'.headerMbuf = skb.headerMbuf ∧ buff.headerMbuf = some header ∧
      ∃ r, M' = M.withRefcnt r := by
  have hheadlen := h.skbHeadlen_eq
  have hbound := h.bound
  have hlen_eq := h.len_eq
  have hsplit := h.cover.splitFrags len M (Nat.add_zero _) (Nat.zero_le _) (by omega)
  have hpages := pages_splitFrags len M 0 skb.shinfo.frags
  have hmiddle := seqOffset_seqAdd seq₀ skb.seq len (by omega)
  rw [IpAugenblick.tcpFragment, if_neg (by omega), hheadlen] at hcut
  simp only [Option.some.injEq, Prod.mk.injEq] at hcut
  obtain ⟨rfl, rfl, rfl⟩ := hcut
  refine ⟨?_, ?_, rfl, rfl, splitFrags_counts len M 0 _⟩
  · exact
      { cover := by
          dsimp only
          rw [hmiddle]
          exact hsplit.1
        sublist := hpages.1.trans h.sublist
        bound := by
          dsimp only
          omega
        len_eq := by
          dsimp only
          rw [hmiddle]
        dataLen_eq := by
          dsimp only
          omega
        headroom_eq := h.headroom_eq
        dataref_eq := h.dataref_eq }
  · exact
      { cover := by
          dsimp only
          rw [hmiddle]
          exact hsplit.2
        sublist := hpages.2.trans h.sublist
        bound := h.bound
        len_eq := by
          dsimp only
          rw [hmiddle]
          omega
        dataLen_eq := by dsimp only
        headroom_eq := rfl
        dataref_eq := Int.add_comm _ _ }

/-- The segment that a trim leaves. -/
theorem tcpTrimHead (h : Segment M₀ pages seq₀ skb) (hsmall : totalLen M₀ pages < 2 ^ 32)
    {len : ℕ} (hlen : len ≤ skb.len) :
    Segment M₀ pages seq₀ (tcpTrimHead M skb len).2 ∧
      (tcpTrimHead M skb len).2.headerMbuf = skb.headerMbuf ∧
      (tcpTrimHead M skb len).1 = (trimFrags M len skb.shinfo.frags).1 := by
  have hheadlen := h.skbHeadlen_eq
  have hbound := h.bound
  have hlen_eq := h.len_eq
  have hdataLen := h.dataLen_eq
  have htrim := h.cover.trimFrags M
    (show seqOffset seq₀ skb.seq + len ≤ seqOffset seq₀ skb.endSeq by omega)
  have hstart := seqOffset_seqAdd seq₀ skb.seq len (by omega)
  have heq : IpAugenblick.tcpTrimHead M skb len =
      ((trimFrags M len skb.shinfo.frags).1,
        { skb with
          seq := seqAdd skb.seq len
          len := skb.dataLen - len
          dataLen := skb.dataLen - len
          shinfo.frags := (trimFrags M len skb.shinfo.frags).2 }) := by
    simp [IpAugenblick.tcpTrimHead, pskbTrimHead, hheadlen]
  rw [heq]
  refine ⟨?_, rfl, rfl⟩
  exact
    { cover := by
        dsimp only
        rw [hstart]
        exact htrim
      sublist := (pages_trimFrags M len skb.shinfo.frags).trans h.sublist
      bound := h.bound
      len_eq := by
        dsimp only
        rw [hstart]
        omega
      dataLen_eq := by dsimp only
      headroom_eq := h.headroom_eq
      dataref_eq := h.dataref_eq }

end Segment

end IpAugenblick
