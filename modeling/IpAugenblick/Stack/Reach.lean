/-
# How far the stack reaches

A cut, a trim, a transmission or the release of a segment changes reference counts, the links of
the buffers in it and the contents of the buffers that the stack took for headers and copies.
The contents of what the client sent stay, and so do the links of what is still in `tx_ring`.
-/

import IpAugenblick.Stack.Credit

namespace IpAugenblick

open Lib

/-! ## Buffers -/

section Keeping

variable {M M' M'' : MbufMem} {ids ids' heads heads' : List ℕ}

theorem Keeps.refl (M : MbufMem) : Keeps M M [] [] := ⟨rfl, fun _ _ => rfl, fun _ _ => rfl⟩

theorem Keeps.trans (h : Keeps M M' ids heads) (h' : Keeps M' M'' ids' heads') :
    Keeps M M'' (ids ++ ids') (heads ++ heads') where
  size := h'.size.trans h.size
  next i hi := by
    rw [List.mem_append, not_or] at hi
    exact (h'.next i hi.2).trans (h.next i hi.1)
  cores i hi := by
    rw [List.mem_append, not_or] at hi
    exact (h'.cores i hi.2).trans (h.cores i hi.1)

theorem Keeps.mono (h : Keeps M M' ids heads) (hids : ids ⊆ ids') (hheads : heads ⊆ heads') :
    Keeps M M' ids' heads' where
  size := h.size
  next i hi := h.next i fun hmem => hi (hids hmem)
  cores i hi := h.cores i fun hmem => hi (hheads hmem)

theorem Keeps.dataLen (h : Keeps M M' ids heads) {p : ℕ} (hp : p ∉ heads) :
    (M'.mbuf p).dataLen = (M.mbuf p).dataLen := by
  have hcore := congrArg Mbuf.dataLen (h.cores p hp)
  exact hcore

theorem keeps_withRefcnt (M : MbufMem) (r : ℕ → ℤ) : Keeps M (M.withRefcnt r) [] [] :=
  ⟨rfl, fun _ _ => rfl, fun _ _ => rfl⟩

theorem keeps_setNext (M : MbufMem) (i : ℕ) (p : Option ℕ) : Keeps M (M.setNext i p) [i] [] where
  size := rfl
  next j hj := by
    rw [MbufMem.next_setNext, Function.update_of_ne (List.mem_singleton.not.mp hj)]
  cores j _ := congrFun (M.cores_setNext i p) j

theorem keeps_freeSeg (M : MbufMem) (i : ℕ) : Keeps M (M.rtePktmbufFreeSeg i) [i] [] where
  size := M.size_rtePktmbufFreeSeg i
  next j hj := M.next_rtePktmbufFreeSeg_of_ne i j (List.mem_singleton.not.mp hj)
  cores j _ := congrFun (M.cores_rtePktmbufFreeSeg i) j

/-- A change of one buffer that leaves its link. -/
theorem keeps_modify (M : MbufMem) (i : ℕ) {f : Mbuf → Mbuf}
    (hf : (f (M.mbuf i)).next = (M.mbuf i).next) : Keeps M (M.modify i f) [] [i] where
  size := rfl
  next j _ := congrFun (M.next_modify i hf) j
  cores j hj := by rw [M.modify_of_ne f (List.mem_singleton.not.mp hj)]

theorem keeps_skbFragRef (M : MbufMem) (f : Frag) : Keeps M (skbFragRef M f) [] [] := by
  obtain ⟨r, hr⟩ := skbFragRef_counts M f
  rw [hr]
  exact keeps_withRefcnt M r

theorem keeps_skbClone (M : MbufMem) (skb : Skb) : Keeps M (skbClone M skb).1 [] [] := by
  obtain ⟨r, hr⟩ := skbClone_counts M skb
  rw [hr]
  exact keeps_withRefcnt M r

theorem keeps_foldl_freeSeg (M : MbufMem) (frags : List Frag) :
    Keeps M (frags.foldl (fun M f => M.rtePktmbufFreeSeg f.page) M) (frags.map Frag.page) [] := by
  induction frags generalizing M with
  | nil => exact .refl M
  | cons f frags ih => exact (keeps_freeSeg M f.page).trans (ih _)

/-- The release of a segment reaches its fragments and its header buffer. -/
theorem keeps_skbReleaseData (M : MbufMem) (skb : Skb) :
    Keeps M (skbReleaseData M skb).1 (skb.pages ++ skb.headerMbuf.toList) [] := by
  have hfrags := keeps_foldl_freeSeg M skb.shinfo.frags
  unfold skbReleaseData
  dsimp only
  generalize (skb.shinfo.dataref - if skb.nohdr = true then skbDatarefUnit + 1 else 1) = dataref
  split
  next =>
      cases hheader : skb.headerMbuf with
      | none => exact hfrags.mono (List.subset_append_left _ _) (List.Subset.refl _)
      | some header => exact hfrags.trans (keeps_freeSeg _ header)
  next => exact (Keeps.refl M).mono (List.nil_subset _) (List.nil_subset _)

theorem keeps_linkFrags (M : MbufMem) (prev n : ℕ) (frags : List Frag) :
    Keeps M (linkFrags M prev n frags).1 (prev :: frags.map Frag.page) [] := by
  induction frags generalizing M prev n with
  | nil => exact keeps_setNext M prev none
  | cons f frags ih =>
      exact ((keeps_setNext M prev (some f.page)).trans (keeps_skbFragRef _ f)).trans (ih _ _ _)

theorem keeps_copyFrags (M : MbufMem) (copied prev offset : ℕ) (frags : List Frag) :
    Keeps M (copyFrags copied M prev offset frags).1 (prev :: frags.map Frag.page) [copied] := by
  induction frags generalizing M prev offset with
  | nil => exact (keeps_setNext M prev none).mono (List.Subset.refl _) (List.nil_subset _)
  | cons f frags ih =>
      have hlink := (keeps_setNext M prev (some f.page)).trans (keeps_skbFragRef _ f)
      rw [copyFrags]
      refine Keeps.mono (hlink.trans ((keeps_modify _ copied ?_).trans
        ((keeps_freeSeg _ f.page).trans (ih _ _ _)))) ?_ ?_
      · rfl
      · intro i hi
        simpa using hi
      · intro i hi
        simpa using hi

theorem keeps_setupHead (M : MbufMem) (head : ℕ) (skb : Skb) :
    Keeps M (setupHead M head skb) [] [head] := by
  apply keeps_modify
  rfl

/-- The port's transmit function links the frame and changes nothing in it but its head. -/
theorem keeps_dpdkXmitFrame (M : MbufMem) (skb : Skb) (head : ℕ) :
    Keeps M (dpdkXmitFrame M skb head).1 (head :: skb.pages) [head] := by
  unfold dpdkXmitFrame
  refine Keeps.mono ((keeps_setupHead M head skb).trans ((keeps_modify _ head ?_).trans
    ((keeps_linkFrags _ head _ skb.shinfo.frags).trans ((keeps_modify _ head ?_).trans
      (keeps_skbReleaseData _ _))))) ?_ ?_
  · rfl
  · rfl
  · intro i hi
    simp only [List.nil_append, List.mem_append, Option.toList_none, List.append_nil] at hi
    rcases hi with hframe | hpages
    · exact hframe
    · exact List.mem_cons_of_mem _ hpages
  · intro i hi
    simpa using hi

/-- The loopback transmit function fills the copy. -/
theorem keeps_lpbkdpdkXmitFrame (M : MbufMem) (skb : Skb) (head copied : ℕ) :
    Keeps M (lpbkdpdkXmitFrame M skb head copied).1 (head :: skb.pages) [head, copied] := by
  unfold lpbkdpdkXmitFrame
  dsimp only
  refine Keeps.mono ((keeps_setupHead M head skb).trans ((keeps_modify _ copied ?_).trans
    ((keeps_freeSeg _ head).trans ((keeps_copyFrags _ copied head _ skb.shinfo.frags).trans
      ((keeps_skbReleaseData _ _).trans (keeps_modify _ copied ?_)))))) ?_ ?_
  · rfl
  · rfl
  · intro i hi
    simp only [List.nil_append, List.mem_append, Option.toList_none, List.append_nil,
      List.mem_singleton] at hi
    rcases hi with rfl | hframe | hpages
    · exact List.mem_cons_self
    · exact hframe
    · exact List.mem_cons_of_mem _ hpages
  · intro i hi
    simpa using hi

/-- A transmission reaches the links of the segment's buffers, its header buffer and a spare
one. -/
theorem keeps_send {s : ReshapeState} {skb : Skb} {hlen : ℕ} {device : Device} {M' : MbufMem}
    {frame : Frame} {spare : List ℕ} (hsend : s.send skb hlen device = some (M', frame, spare)) :
    Keeps s.mem M' (skb.headerMbuf.toList ++ skb.pages) (skb.headerMbuf.toList ++ s.spare) ∧
      spare ⊆ s.spare := by
  unfold ReshapeState.send at hsend
  split at hsend
  next => cases hsend
  next =>
      cases hhead : skb.headerMbuf with
      | none =>
          rw [hhead] at hsend
          cases hsend
      | some head =>
          rw [hhead] at hsend
          cases device with
          | dpdk =>
              cases hsend
              exact ⟨Keeps.mono ((keeps_skbClone s.mem skb).trans (keeps_dpdkXmitFrame _ _ head))
                (List.Subset.refl _) (List.subset_append_left _ _), List.Subset.refl _⟩
          | lpbkdpdk =>
              cases hspare : s.spare with
              | nil =>
                  rw [hspare] at hsend
                  cases hsend
              | cons copied rest =>
                  rw [hspare] at hsend
                  cases hsend
                  refine ⟨Keeps.mono ((keeps_skbClone s.mem skb).trans
                    (keeps_lpbkdpdkXmitFrame _ _ head copied)) (List.Subset.refl _) ?_,
                    List.subset_cons_self _ _⟩
                  intro i hi
                  simp only [List.nil_append, List.mem_cons, List.not_mem_nil, or_false] at hi
                  rcases hi with rfl | rfl
                  · exact List.mem_append_left _ (List.mem_singleton_self _)
                  · exact List.mem_append_right _ List.mem_cons_self

theorem keeps_trimFrags (M : MbufMem) (eat : ℕ) (frags : List Frag) :
    Keeps M (trimFrags M eat frags).1 (frags.map Frag.page) [] :=
  ⟨size_trimFrags _ _ _, fun _ hi => next_trimFrags _ _ hi,
    fun i _ => congrFun (cores_trimFrags _ _ _) i⟩

end Keeping

/-! ## Cuts and trims -/

/-- A cut leaves every buffer in one of the halves. -/
theorem mem_pages_splitFrags (len : ℕ) (M : MbufMem) (pos : ℕ) {frags : List Frag} {p : ℕ}
    (hp : p ∈ frags.map Frag.page) :
    p ∈ (splitFrags len M pos frags).2.1.map Frag.page ∨
      p ∈ (splitFrags len M pos frags).2.2.map Frag.page := by
  induction frags generalizing M pos with
  | nil => cases hp
  | cons f fs ih =>
      rw [List.map_cons, List.mem_cons] at hp
      rw [splitFrags]
      split
      · split
        · rcases hp with rfl | hrest
          · exact .inl List.mem_cons_self
          · exact (ih _ _ hrest).imp (List.mem_cons_of_mem _) (List.mem_cons_of_mem _)
        · rcases hp with rfl | hrest
          · exact .inr List.mem_cons_self
          · exact (ih _ _ hrest).imp id (List.mem_cons_of_mem _)
      · rcases hp with rfl | hrest
        · exact .inl List.mem_cons_self
        · exact (ih _ _ hrest).imp (List.mem_cons_of_mem _) id

/-- What a trim does not drop stays. -/
theorem mem_pages_trimFrags (M : MbufMem) (eat : ℕ) {frags : List Frag} {p : ℕ}
    (hp : p ∈ frags.map Frag.page) :
    p ∈ (trimFrags M eat frags).2.map Frag.page ∨ p ∈ (droppedFrags eat frags).map Frag.page := by
  induction frags generalizing M eat with
  | nil => cases hp
  | cons f fs ih =>
      rw [List.map_cons, List.mem_cons] at hp
      rw [trimFrags, droppedFrags]
      split
      · rcases hp with rfl | hrest
        · exact .inr List.mem_cons_self
        · exact (ih _ _ hrest).imp id (List.mem_cons_of_mem _)
      · rcases hp with rfl | hrest
        · exact .inl List.mem_cons_self
        · exact (ih _ _ hrest).imp (List.mem_cons_of_mem _) id

/-- What `tcp_trim_head` does to the buffers of a segment. -/
theorem tcpTrimHead_pages (M : MbufMem) (skb : Skb) (len : ℕ) :
    Keeps M (tcpTrimHead M skb len).1 skb.pages [] ∧
      (tcpTrimHead M skb len).2.headerMbuf = skb.headerMbuf ∧
      (tcpTrimHead M skb len).2.pages ⊆ skb.pages ∧
      ∀ p ∈ skb.pages, p ∈ (tcpTrimHead M skb len).2.pages ∨
        p ∈ (trimmedFrags skb len).map Frag.page := by
  unfold tcpTrimHead pskbTrimHead trimmedFrags
  dsimp only
  split
  next =>
      exact ⟨(Keeps.refl M).mono (List.nil_subset _) (List.nil_subset _), rfl,
        List.Subset.refl _, fun p hp => .inl hp⟩
  next =>
      exact ⟨keeps_trimFrags _ _ _, rfl, (pages_trimFrags _ _ _).subset,
        fun p hp => mem_pages_trimFrags _ _ hp⟩

/-! ## The write queue -/

namespace ReshapeState

variable {s t : ReshapeState} {i len : ℕ} {skb : Skb}

/-- The queue around its `i`-th segment. -/
theorem queue_split (hget : s.queue[i]? = some skb) :
    s.queue = s.queue.take i ++ skb :: s.queue.drop (i + 1) := by
  obtain ⟨hlt, rfl⟩ := List.getElem?_eq_some_iff.mp hget
  rw [← List.drop_eq_getElem_cons hlt, List.take_append_drop]

theorem mem_pages_iff {p : ℕ} : p ∈ s.pages ↔ ∃ k ∈ s.queue, p ∈ k.pages := List.mem_flatMap

theorem mem_heads_iff {h : ℕ} :
    h ∈ s.heads ↔ (∃ k ∈ s.queue, k.headerMbuf = some h) ∨ h ∈ s.spare := by
  unfold heads
  rw [List.mem_append, List.mem_filterMap]

/-- How far a step of the stack reaches in the buffers, and which of them it keeps. -/
structure Reaches (s t : ReshapeState) (ids heads : List ℕ) : Prop where
  keeps : Keeps s.mem t.mem ids heads
  ids : ids ⊆ s.pages ++ s.heads
  changed : heads ⊆ s.heads
  pages : t.pages ⊆ s.pages
  heads : t.heads ⊆ s.heads

/-- A cut. -/
theorem reaches_fragment {header : ℕ} {spare : List ℕ} {M' : MbufMem} {skb' buff : Skb}
    (hget : s.queue[i]? = some skb) (hspare : s.spare = header :: spare)
    (hcut : tcpFragment s.mem skb len header = some (M', skb', buff)) :
    Reaches s ⟨M', s.queue.take i ++ skb' :: buff :: s.queue.drop (i + 1), spare⟩ [] [] ∧
      s.pages ⊆
        ReshapeState.pages ⟨M', s.queue.take i ++ skb' :: buff :: s.queue.drop (i + 1), spare⟩ := by
  unfold tcpFragment at hcut
  split at hcut
  next => cases hcut
  next =>
      have hsub := pages_splitFrags len s.mem skb.skbHeadlen skb.shinfo.frags
      obtain ⟨r, hr⟩ := splitFrags_counts len s.mem skb.skbHeadlen skb.shinfo.frags
      cases hcut
      have hqueue := queue_split hget
      have hskb : skb ∈ s.queue := List.mem_of_getElem? hget
      refine ⟨⟨?_, List.nil_subset _, List.nil_subset _, ?_, ?_⟩, ?_⟩
      · dsimp only
        rw [hr]
        exact keeps_withRefcnt _ _
      · intro p hp
        obtain ⟨k, hk, hpk⟩ := mem_pages_iff.mp hp
        simp only [List.mem_append, List.mem_cons] at hk
        rw [mem_pages_iff]
        rcases hk with hpre | rfl | rfl | hpost
        · exact ⟨k, List.mem_of_mem_take hpre, hpk⟩
        · exact ⟨skb, hskb, hsub.1.subset hpk⟩
        · exact ⟨skb, hskb, hsub.2.subset hpk⟩
        · exact ⟨k, List.mem_of_mem_drop hpost, hpk⟩
      · intro h hh
        rw [mem_heads_iff] at hh ⊢
        rcases hh with ⟨k, hk, hkh⟩ | hrest
        · simp only [List.mem_append, List.mem_cons] at hk
          rcases hk with hpre | rfl | rfl | hpost
          · exact .inl ⟨k, List.mem_of_mem_take hpre, hkh⟩
          · exact .inl ⟨skb, hskb, hkh⟩
          · obtain rfl := Option.some.inj hkh
            rw [hspare]
            exact .inr List.mem_cons_self
          · exact .inl ⟨k, List.mem_of_mem_drop hpost, hkh⟩
        · rw [hspare]
          exact .inr (List.mem_cons_of_mem _ hrest)
      · intro p hp
        obtain ⟨k, hk, hpk⟩ := mem_pages_iff.mp hp
        rw [hqueue, List.mem_append, List.mem_cons] at hk
        rw [mem_pages_iff]
        rcases hk with hpre | rfl | hpost
        · exact ⟨k, List.mem_append_left _ hpre, hpk⟩
        · rcases mem_pages_splitFrags len s.mem k.skbHeadlen hpk with hkeep | hmove
          · exact ⟨_, List.mem_append_right _ List.mem_cons_self, hkeep⟩
          · exact ⟨_, List.mem_append_right _ (List.mem_cons_of_mem _ List.mem_cons_self), hmove⟩
        · exact ⟨k, List.mem_append_right _ (List.mem_cons_of_mem _ (List.mem_cons_of_mem _ hpost)),
            hpk⟩

/-- A trim. -/
theorem reaches_trimHead (hget : s.queue[i]? = some skb) :
    Reaches s
        { s with
          mem := (tcpTrimHead s.mem skb len).1
          queue := s.queue.set i (tcpTrimHead s.mem skb len).2 } skb.pages [] ∧
      ∀ p ∈ s.pages,
        (∃ k ∈ s.queue.set i (tcpTrimHead s.mem skb len).2, p ∈ k.pages) ∨
          p ∈ (trimmedFrags skb len).map Frag.page := by
  obtain ⟨hkeeps, hheader, hsub, hstay⟩ := tcpTrimHead_pages s.mem skb len
  have hskb : skb ∈ s.queue := List.mem_of_getElem? hget
  have hlt := (List.getElem?_eq_some_iff.mp hget).1
  refine ⟨⟨hkeeps, ?_, List.nil_subset _, ?_, ?_⟩, ?_⟩
  · intro p hp
    exact List.mem_append_left _ (mem_pages_iff.mpr ⟨skb, hskb, hp⟩)
  · intro p hp
    obtain ⟨k, hk, hpk⟩ := mem_pages_iff.mp hp
    rw [mem_pages_iff]
    rcases List.mem_or_eq_of_mem_set hk with hold | rfl
    · exact ⟨k, hold, hpk⟩
    · exact ⟨skb, hskb, hsub hpk⟩
  · intro h hh
    rw [mem_heads_iff] at hh ⊢
    refine hh.imp ?_ id
    rintro ⟨k, hk, hkh⟩
    rcases List.mem_or_eq_of_mem_set hk with hold | rfl
    · exact ⟨k, hold, hkh⟩
    · exact ⟨skb, hskb, hheader ▸ hkh⟩
  · intro p hp
    obtain ⟨k, hk, hpk⟩ := mem_pages_iff.mp hp
    rw [queue_split hget, List.mem_append, List.mem_cons] at hk
    rw [List.set_eq_take_append_cons_drop, if_pos hlt]
    rcases hk with hpre | rfl | hpost
    · exact .inl ⟨k, List.mem_append_left _ hpre, hpk⟩
    · refine (hstay p hpk).imp (fun hmem => ?_) id
      exact ⟨_, List.mem_append_right _ List.mem_cons_self, hmem⟩
    · exact .inl ⟨k, List.mem_append_right _ (List.mem_cons_of_mem _ hpost), hpk⟩

/-- A transmission. -/
theorem reaches_transmit {hlen : ℕ} {device : Device} {M' : MbufMem} {frame : Frame}
    {spare : List ℕ} (hget : s.queue[i]? = some skb)
    (hsend : s.send skb hlen device = some (M', frame, spare)) :
    Reaches s { s with mem := M', spare } (skb.headerMbuf.toList ++ skb.pages)
      (skb.headerMbuf.toList ++ s.spare) := by
  obtain ⟨hkeeps, hspare⟩ := keeps_send hsend
  have hskb : skb ∈ s.queue := List.mem_of_getElem? hget
  have hhead : ∀ h ∈ skb.headerMbuf.toList, h ∈ s.heads := by
    intro h hh
    exact mem_heads_iff.mpr (.inl ⟨skb, hskb, Option.mem_toList.mp hh⟩)
  refine ⟨hkeeps, ?_, ?_, List.Subset.refl _, ?_⟩
  · intro p hp
    rcases List.mem_append.mp hp with hh | hpage
    · exact List.mem_append_right _ (hhead p hh)
    · exact List.mem_append_left _ (mem_pages_iff.mpr ⟨skb, hskb, hpage⟩)
  · intro p hp
    rcases List.mem_append.mp hp with hh | hspare'
    · exact hhead p hh
    · exact mem_heads_iff.mpr (.inr hspare')
  · intro h hh
    rw [mem_heads_iff] at hh ⊢
    exact hh.imp id (@hspare h)

end ReshapeState

end IpAugenblick
