/-
# Transmitting a segment

What `skb_clone` and `dpdk_xmit_frame` do to the buffers of a segment: the
frame is the header buffer followed by the buffers of the fragments in order, and
every fragment gains references.  `skb_frag_ref` walks the chain that starts at
the fragment's buffer, so how many references a buffer gains depends on whether
an earlier frame has left the buffers linked.
-/

import IpAugenblick.Stack.Sendpages

namespace IpAugenblick

open Lib

/-! ## References taken along the fragments -/

/-- The chain that a count update starting at the buffer `p` walks when `ps` are
the buffers of the fragments behind it. -/
def walked (linked : Bool) (p : ℕ) (ps : List ℕ) : List ℕ := if linked then p :: ps else [p]

/-- The buffers of the fragments are linked one after the other, or not at all. -/
def Threaded (linked : Bool) (M : MbufMem) : List ℕ → Prop
  | [] => True
  | p :: ps => Linked M.next (some p) (walked linked p ps) ∧ Threaded linked M ps

/-- References that buffer `i` gains when every fragment is referenced once. -/
def gain (linked : Bool) : List ℕ → ℕ → ℤ
  | [], _ => 0
  | p :: ps, i => (walked linked p ps).count i + gain linked ps i

theorem Threaded.congr {linked : Bool} {M M' : MbufMem} {ps : List ℕ}
    (h : Threaded linked M ps) (hnext : ∀ p ∈ ps, M'.next p = M.next p) :
    Threaded linked M' ps := by
  induction ps with
  | nil => trivial
  | cons p ps ih =>
      constructor
      · apply h.1.congr
        intro q hq
        apply hnext q
        cases linked with
        | false =>
            simp only [walked, Bool.false_eq_true, if_false, List.mem_singleton] at hq
            simp [hq]
        | true => simpa [walked] using hq
      · exact ih h.2 fun q hq => hnext q (by simp [hq])

theorem threaded_of_unlinked {M : MbufMem} {ps : List ℕ} (h : ∀ p ∈ ps, M.next p = none) :
    Threaded false M ps := by
  induction ps with
  | nil => trivial
  | cons p ps ih =>
      constructor
      · simp [walked, h p]
      · exact ih fun q hq => h q (by simp [hq])

theorem threaded_of_linked {M : MbufMem} {start : Option ℕ} {ps : List ℕ}
    (h : Linked M.next start ps) : Threaded true M ps := by
  induction ps generalizing start with
  | nil => trivial
  | cons p ps ih =>
      obtain ⟨rfl, htail⟩ := h
      exact ⟨⟨rfl, htail⟩, ih htail⟩

theorem gain_eq_zero (linked : Bool) {ps : List ℕ} {i : ℕ} (h : i ∉ ps) :
    gain linked ps i = 0 := by
  induction ps with
  | nil => rfl
  | cons p ps ih =>
      simp only [List.mem_cons, not_or] at h
      have hne : ¬ p = i := fun heq => h.1 heq.symm
      rw [gain, ih h.2]
      cases linked <;> simp [walked, hne, List.count_eq_zero_of_not_mem h.2]

/-- The buffer of the first fragment gains exactly one reference. -/
theorem gain_head (linked : Bool) {p : ℕ} {ps : List ℕ} (h : p ∉ ps) :
    gain linked (p :: ps) p = 1 := by
  rw [gain, gain_eq_zero linked h]
  cases linked <;> simp [walked, List.count_eq_zero_of_not_mem h]

theorem gain_nonneg (linked : Bool) (ps : List ℕ) (i : ℕ) : 0 ≤ gain linked ps i := by
  induction ps with
  | nil => simp [gain]
  | cons p ps ih =>
      rw [gain]
      have hcount : (0 : ℤ) ≤ (walked linked p ps).count i := Int.natCast_nonneg _
      omega

theorem one_le_gain (linked : Bool) {ps : List ℕ} {i : ℕ} (h : i ∈ ps) :
    1 ≤ gain linked ps i := by
  induction ps with
  | nil => simp at h
  | cons p ps ih =>
      rw [gain]
      by_cases heq : i = p
      · subst heq
        have hcount : 1 ≤ (walked linked i ps).count i := by
          apply List.count_pos_iff.mpr
          cases linked <;> simp [walked]
        have hrest := gain_nonneg linked ps i
        omega
      · have hmem : i ∈ ps := by simpa [heq] using h
        have hcount : (0 : ℤ) ≤ (walked linked p ps).count i := Int.natCast_nonneg _
        have hrest := ih hmem
        omega

/-- Buffers that no frame has linked yet gain exactly one reference each. -/
theorem gain_unlinked {ps : List ℕ} {i : ℕ} (hnodup : ps.Nodup) (h : i ∈ ps) :
    gain false ps i = 1 := by
  induction ps with
  | nil => simp at h
  | cons p ps ih =>
      obtain ⟨hp, hps⟩ := List.nodup_cons.mp hnodup
      by_cases heq : i = p
      · subst heq
        exact gain_head false hp
      · have hmem : i ∈ ps := by simpa [heq] using h
        have hne : ¬ p = i := fun h => heq h.symm
        rw [gain, ih hps hmem]
        simp [walked, hne]

theorem length_walked_le (linked : Bool) (p : ℕ) (ps : List ℕ) :
    (walked linked p ps).length ≤ ps.length + 1 := by
  cases linked <;> simp [walked]

/-- Referencing every fragment once, as `__skb_clone` does. -/
theorem foldl_skbFragRef {linked : Bool} {M : MbufMem} {frags : List Frag}
    (hthreaded : Threaded linked M (frags.map Frag.page)) (hsize : frags.length ≤ M.size) :
    frags.foldl skbFragRef M =
      M.withRefcnt fun i => M.refcnt i + gain linked (frags.map Frag.page) i := by
  induction frags generalizing M with
  | nil => simp [gain, MbufMem.withRefcnt, MbufMem.refcnt]
  | cons f frags ih =>
      obtain ⟨hwalk, hrest⟩ := hthreaded
      have hlength := length_walked_le linked f.page (frags.map Frag.page)
      have hupdate : skbFragRef M f = M.withRefcnt fun i =>
          M.refcnt i + (walked linked f.page (frags.map Frag.page)).count i := by
        have hfit : (walked linked f.page (frags.map Frag.page)).length ≤ M.size := by
          simp only [List.length_map] at hlength
          simp only [List.length_cons] at hsize
          omega
        rw [skbFragRef, MbufMem.rtePktmbufRefcntUpdate_eq M 1 hwalk hfit]
        simp
      have hthreaded' : Threaded linked (skbFragRef M f) (frags.map Frag.page) := by
        apply hrest.congr
        intro p _
        rw [hupdate, MbufMem.next_withRefcnt]
      have hsize' : frags.length ≤ (skbFragRef M f).size := by
        rw [hupdate]
        simp only [List.length_cons] at hsize
        exact Nat.le_of_succ_le hsize
      rw [List.foldl_cons, ih hthreaded' hsize', hupdate, MbufMem.withRefcnt_withRefcnt]
      congr 1
      funext i
      rw [MbufMem.refcnt_withRefcnt, List.map_cons, gain]
      omega

/-! ## The fragment loop of the driver -/

theorem skbFragRef_counts (M : MbufMem) (f : Frag) : ∃ r, skbFragRef M f = M.withRefcnt r :=
  M.rtePktmbufRefcntUpdate_counts f.page 1

/-- Linking a fragment changes the link of `prev` and counts, nothing else. -/
theorem link_counts (M : MbufMem) (prev : ℕ) (f : Frag) :
    ∃ r, skbFragRef (M.setNext prev (some f.page)) f =
      (M.setNext prev (some f.page)).withRefcnt r :=
  skbFragRef_counts _ f

/-- What the loop leaves alone: the contents of all buffers, the logs, and the
links of the buffers that are not part of the frame. -/
structure FrameOnly (M M' : MbufMem) (ids : List ℕ) : Prop where
  cores : M'.cores = M.cores
  size : M'.size = M.size
  puts : M'.puts = M.puts
  next : ∀ i, i ∉ ids → M'.next i = M.next i

/-- **Layout of a frame.**  Whatever links the buffers had before, the frame is
`prev` followed by the buffers of the fragments, and the length counts each of
these buffers in full. -/
theorem linkFrags_layout (M : MbufMem) (prev n : ℕ) (frags : List Frag)
    (hnodup : (prev :: frags.map Frag.page).Nodup) :
    Linked (linkFrags M prev n frags).1.next (some prev) (prev :: frags.map Frag.page) ∧
      (linkFrags M prev n frags).2 = n + totalLen M (frags.map Frag.page) ∧
      FrameOnly M (linkFrags M prev n frags).1 (prev :: frags.map Frag.page) := by
  induction frags generalizing M prev n with
  | nil =>
      refine ⟨⟨rfl, ?_⟩, by simp [linkFrags, totalLen], ?_⟩
      · simp [linkFrags, MbufMem.next_setNext]
      · refine ⟨M.cores_setNext prev none, rfl, rfl, ?_⟩
        intro i hi
        have hne : i ≠ prev := by simpa using hi
        rw [linkFrags, MbufMem.next_setNext, Function.update_of_ne hne]
  | cons f frags ih =>
      obtain ⟨hprev, hrest⟩ := List.nodup_cons.mp hnodup
      obtain ⟨r, hstep⟩ := link_counts M prev f
      have hcores : (skbFragRef (M.setNext prev (some f.page)) f).cores = M.cores := by
        rw [hstep, MbufMem.cores_withRefcnt, MbufMem.cores_setNext]
      have hnext : (skbFragRef (M.setNext prev (some f.page)) f).next =
          Function.update M.next prev (some f.page) := by
        rw [hstep, MbufMem.next_withRefcnt, MbufMem.next_setNext]
      obtain ⟨hlinked, hlength, hframe⟩ :=
        ih (skbFragRef (M.setNext prev (some f.page)) f) f.page
          (n + ((skbFragRef (M.setNext prev (some f.page)) f).mbuf f.page).dataLen) hrest
      rw [linkFrags]
      refine ⟨⟨rfl, ?_⟩, ?_, ?_⟩
      · rw [hframe.next prev hprev, hnext, Function.update_self]
        exact hlinked
      · have htotal : totalLen (skbFragRef (M.setNext prev (some f.page)) f)
            (frags.map Frag.page) = totalLen M (frags.map Frag.page) := by
          unfold totalLen total
          congr 1
          apply List.map_congr_left
          intro p _
          exact MbufMem.dataLen_congr hcores p
        rw [hlength, htotal, MbufMem.dataLen_congr hcores]
        simp [totalLen, Nat.add_assoc]
      · constructor
        · rw [hframe.cores, hcores]
        · rw [hframe.size, hstep]
          rfl
        · rw [hframe.puts, hstep]
          rfl
        · intro i hi
          simp only [List.mem_cons, not_or] at hi
          rw [hframe.next i (by simpa using hi.2), hnext, Function.update_of_ne hi.1]

/-- References taken by the loop: the same as by referencing every fragment. -/
theorem refcnt_linkFrags {linked : Bool} (M : MbufMem) (prev n : ℕ) {frags : List Frag}
    (hthreaded : Threaded linked M (frags.map Frag.page))
    (hnodup : (prev :: frags.map Frag.page).Nodup) (hsize : frags.length ≤ M.size) (i : ℕ) :
    (linkFrags M prev n frags).1.refcnt i =
      M.refcnt i + gain linked (frags.map Frag.page) i := by
  induction frags generalizing M prev n with
  | nil =>
      by_cases h : i = prev
      · subst h
        simp [linkFrags, gain, MbufMem.refcnt, MbufMem.setNext]
      · simp [linkFrags, gain, MbufMem.refcnt, MbufMem.setNext, MbufMem.modify_of_ne _ _ h]
  | cons f frags ih =>
      obtain ⟨hprev, hrest⟩ := List.nodup_cons.mp hnodup
      -- `prev` is not a fragment buffer, so the chains to be walked are still there.
      have hset : ∀ p ∈ f.page :: frags.map Frag.page,
          (M.setNext prev (some f.page)).next p = M.next p := by
        intro p hp
        rw [MbufMem.next_setNext]
        apply Function.update_of_ne
        rintro rfl
        exact hprev hp
      obtain ⟨hwalk, hthreadedRest⟩ := hthreaded.congr hset
      have hlength := length_walked_le linked f.page (frags.map Frag.page)
      have hfit : (walked linked f.page (frags.map Frag.page)).length ≤
          (M.setNext prev (some f.page)).size := by
        simp only [List.length_map] at hlength
        simp only [List.length_cons] at hsize
        exact Nat.le_trans hlength hsize
      have hcounts : ∀ j, (M.setNext prev (some f.page)).refcnt j = M.refcnt j := by
        intro j
        by_cases h : j = prev
        · subst h
          simp [MbufMem.refcnt, MbufMem.setNext]
        · simp [MbufMem.refcnt, MbufMem.setNext, MbufMem.modify_of_ne _ _ h]
      have hupdate : skbFragRef (M.setNext prev (some f.page)) f =
          (M.setNext prev (some f.page)).withRefcnt fun j =>
            M.refcnt j + (walked linked f.page (frags.map Frag.page)).count j := by
        rw [skbFragRef, MbufMem.rtePktmbufRefcntUpdate_eq _ 1 hwalk hfit]
        simp [hcounts]
      rw [linkFrags, ih _ _ _ ?_ hrest ?_, hupdate, MbufMem.refcnt_withRefcnt, List.map_cons,
        gain]
      · omega
      · apply hthreadedRest.congr
        intro p _
        rw [hupdate, MbufMem.next_withRefcnt]
      · rw [hupdate]
        simp only [List.length_cons] at hsize
        exact Nat.le_of_succ_le hsize

/-! ## A whole transmission -/

/-- The release of a clone leaves the shared data to the original. -/
theorem skbReleaseData_clone (M : MbufMem) {clone : Skb} (hcloned : clone.cloned = true)
    (hnohdr : clone.nohdr = false) (hdataref : clone.shinfo.dataref = skbDatarefUnit + 2) :
    skbReleaseData M clone =
      (M, { clone.shinfo with dataref := skbDatarefUnit + 1 }) := by
  have hleft : clone.shinfo.dataref - 1 = skbDatarefUnit + 1 := by omega
  have hpos : ¬ skbDatarefUnit + 1 = 0 := by decide
  simp [skbReleaseData, hcloned, hnohdr, hleft, hpos]

/-- The clone changes nothing but counts. -/
theorem skbClone_counts (M : MbufMem) (skb : Skb) : ∃ r, (skbClone M skb).1 = M.withRefcnt r := by
  have hfrags : ∀ (frags : List Frag) (N : MbufMem), (∃ r, N = M.withRefcnt r) →
      ∃ r, frags.foldl skbFragRef N = M.withRefcnt r := by
    intro frags
    induction frags with
    | nil => exact fun N hN => hN
    | cons f frags ih =>
        intro N hN
        obtain ⟨r, rfl⟩ := hN
        apply ih
        exact skbFragRef_counts (M.withRefcnt r) f
  apply hfrags
  cases skb.headerMbuf with
  | none => exact ⟨M.refcnt, rfl⟩
  | some header => exact ⟨_, M.rteMbufRefcntUpdate_eq header 1⟩

/-- What the driver writes into the header buffer before it links the fragments. -/
def headSetup (skb : Skb) (hlen : ℕ) (m : Mbuf) : Mbuf :=
  { m with
    dataLen := (skbPush skb hlen).skbHeadlen % 65536
    dataOff := rtePktmbufHeadroom + (skbPush skb hlen).headroom
    nbSegs := 1 + skb.shinfo.frags.length }

/-- A transmission written out: the clone, the header buffer, the fragments. -/
theorem tcpTransmitSkb_eq (M : MbufMem) {skb : Skb} (hlen : ℕ) {head : ℕ}
    (hdataref : skb.shinfo.dataref = skbDatarefUnit + 1) :
    tcpTransmitSkb M skb hlen head =
      ((linkFrags ((skbClone M skb).1.modify head (headSetup skb hlen)) head
          (((skbClone M skb).1.modify head (headSetup skb hlen)).mbuf head).dataLen
          skb.shinfo.frags).1.modify head fun m => { m with
            pktLen := (linkFrags ((skbClone M skb).1.modify head (headSetup skb hlen)) head
              (((skbClone M skb).1.modify head (headSetup skb hlen)).mbuf head).dataLen
              skb.shinfo.frags).2 },
        { skb with cloned := true }) := by
  have hsetup : ((setupHead (skbClone M skb).1 head (skbPush (skbClone M skb).2.2 hlen)).modify
      head fun m => { m with nbSegs := 1 + skb.shinfo.frags.length }) =
        (skbClone M skb).1.modify head (headSetup skb hlen) := by
    simp only [setupHead, MbufMem.modify, Function.update_self, Function.update_idem]
    rfl
  unfold tcpTransmitSkb dpdkXmitFrame
  dsimp only
  rw [show (skbPush (skbClone M skb).2.2 hlen).shinfo.frags = skb.shinfo.frags from rfl, hsetup,
    skbReleaseData_clone]
  · have hshinfo : (skbPush (skbClone M skb).2.2 hlen).shinfo =
        { skb.shinfo with dataref := skb.shinfo.dataref + 1 } := rfl
    simp only [hshinfo, ← hdataref]
    rfl
  · rfl
  · rfl
  · show skb.shinfo.dataref + 1 = skbDatarefUnit + 2
    omega

/-- The memory after a transmission, whatever the links were before. -/
structure Transmitted (M : MbufMem) (skb : Skb) (hlen head : ℕ) (M' : MbufMem) (skb' : Skb) :
    Prop where
  same : skb' = { skb with cloned := true }
  linked : Linked M'.next (some head) (head :: skb.pages)
  size : M'.size = M.size
  puts : M'.puts = M.puts
  headLen : (M'.mbuf head).dataLen = (skbPush skb hlen).skbHeadlen % 65536
  pktLen : (M'.mbuf head).pktLen =
    (skbPush skb hlen).skbHeadlen % 65536 + totalLen M skb.pages
  next : ∀ i, i ∉ head :: skb.pages → M'.next i = M.next i
  cores : ∀ i, i ≠ head → (M'.mbuf i).core = (M.mbuf i).core

theorem tcpTransmitSkb_frame (M : MbufMem) {skb : Skb} (hlen : ℕ) {head : ℕ}
    (hnodup : (head :: skb.pages).Nodup)
    (hdataref : skb.shinfo.dataref = skbDatarefUnit + 1) :
    Transmitted M skb hlen head (tcpTransmitSkb M skb hlen head).1
      (tcpTransmitSkb M skb hlen head).2 := by
  obtain ⟨r, hclone⟩ := skbClone_counts M skb
  obtain ⟨N, hN⟩ : ∃ N, N = (skbClone M skb).1.modify head (headSetup skb hlen) := ⟨_, rfl⟩
  have hNhead : (N.mbuf head).dataLen = (skbPush skb hlen).skbHeadlen % 65536 := by
    rw [hN, MbufMem.modify_self]
    rfl
  have hNcore : ∀ i, i ≠ head → (N.mbuf i).core = (M.mbuf i).core := by
    intro i hi
    rw [hN, MbufMem.modify_of_ne _ _ hi, hclone]
    rfl
  have hNnext : N.next = M.next := by
    rw [hN, MbufMem.next_modify, hclone, MbufMem.next_withRefcnt]
    rfl
  have hNtotal : totalLen N skb.pages = totalLen M skb.pages := by
    unfold totalLen total
    congr 1
    apply List.map_congr_left
    intro p hp
    have hne : p ≠ head := fun heq => (List.nodup_cons.mp hnodup).1 (heq ▸ hp)
    have hcore := congrArg Mbuf.dataLen (hNcore p hne)
    exact hcore
  obtain ⟨hlinked, hlength, hframe⟩ :=
    linkFrags_layout N head (N.mbuf head).dataLen skb.shinfo.frags hnodup
  rw [tcpTransmitSkb_eq M hlen hdataref, ← hN]
  exact
    { same := rfl
      linked := by
        rw [MbufMem.next_modify]
        · exact hlinked
        · rfl
      size := by
        rw [MbufMem.size_modify, hframe.size, hN, MbufMem.size_modify, hclone]
        rfl
      puts := by
        show (linkFrags N head _ _).1.puts = _
        rw [hframe.puts, hN]
        show (skbClone M skb).1.puts = _
        rw [hclone]
        rfl
      headLen := by
        rw [MbufMem.modify_self]
        have hkept := MbufMem.dataLen_congr hframe.cores head
        exact hkept.trans hNhead
      pktLen := by
        rw [MbufMem.modify_self]
        show (linkFrags N head _ _).2 = _
        rw [hlength, hNhead]
        exact congrArg _ hNtotal
      next := by
        intro i hi
        rw [MbufMem.next_modify]
        · rw [hframe.next i hi, hNnext]
        · rfl
      cores := by
        intro i hi
        rw [MbufMem.modify_of_ne _ _ hi]
        exact (congrFun hframe.cores i).trans (hNcore i hi) }

end IpAugenblick
