/-
# The bytes of a frame

TCP cuts segments anywhere: `tcp_fragment` and `tcp_trim_head` adjust the offset
and the size of a fragment and leave its buffer alone.  The drivers link, or
copy, whole buffers by their data length.  The two views of a segment agree
exactly when its sequence range starts and ends between two buffers of the chain
that the application sent.

`reshapeMachine` runs any sequence of cuts, trims and transmissions on a segment
of `do_tcp_sendpages` and on the segments cut from it.
-/

import IpAugenblick.Lib.Machine
import IpAugenblick.Stack.Segments

namespace IpAugenblick

open Lib

/-! ## Frames -/

/-- The drivers: the port, and the loopback device. -/
inductive Device
  | dpdk
  | lpbkdpdk
  deriving DecidableEq, Repr

/-- What a device sends: the bytes of the packet and its `pkt_len`. -/
structure Frame where
  bytes : List UInt8
  pktLen : ℕ
  deriving DecidableEq, Repr

/-- The packet that starts at `head`. -/
def frameAt (M : MbufMem) (head : ℕ) : Frame where
  bytes := M.chainBytes M.size (some head)
  pktLen := (M.mbuf head).pktLen

/-! ## Reshaping a segment -/

/-- The segments cut from one, with the spare buffers for headers and loopback
copies. -/
structure ReshapeState where
  mem : MbufMem
  queue : List Skb
  spare : List ℕ

/-- What happens to the `i`-th segment. -/
inductive ReshapeStep
  | fragment (i len : ℕ)
  | trimHead (i len : ℕ)
  | transmit (i hlen : ℕ) (device : Device)
  deriving DecidableEq, Repr

/-- A transmission of `skb` with `hlen` bytes of headers: the buffers
afterwards, the frame, and the spare buffers that are left.  `skb_push` refuses
headers that do not fit the headroom. -/
def ReshapeState.send (s : ReshapeState) (skb : Skb) (hlen : ℕ) (device : Device) :
    Option (MbufMem × Frame × List ℕ) :=
  if skb.headroom < hlen then none
  else match skb.headerMbuf, device, s.spare with
    | some head, .dpdk, spare =>
        let mem := (tcpTransmitSkb s.mem skb hlen head).1
        some (mem, frameAt mem head, spare)
    | some head, .lpbkdpdk, copied :: spare =>
        let clone := skbClone s.mem skb
        let mem := (lpbkdpdkXmitFrame clone.1 (skbPush clone.2.2 hlen) head copied).1
        some (mem, frameAt mem copied, spare)
    | _, _, _ => none

/-- Cuts strictly inside a segment, trims of at most its length, transmissions.  These are the
bounds under which TCP makes the calls, and they may come in any order and number. -/
def reshapeMachine (mem : MbufMem) (skb : Skb) (spare : List ℕ) :
    Machine ReshapeState ReshapeStep where
  init := { mem, queue := [skb], spare }
  step s
    | .fragment i len =>
        match s.queue[i]?, s.spare with
        | some skb, header :: spare =>
            if 0 < len ∧ len < skb.len then
              (tcpFragment s.mem skb len header).map fun (mem, skb, buff) =>
                { mem, queue := s.queue.take i ++ skb :: buff :: s.queue.drop (i + 1), spare }
            else none
        | _, _ => none
    | .trimHead i len =>
        match s.queue[i]? with
        | some skb =>
            if len ≤ skb.len then
              let trimmed := tcpTrimHead s.mem skb len
              some { s with mem := trimmed.1, queue := s.queue.set i trimmed.2 }
            else none
        | none => none
    | .transmit i hlen device =>
        match s.queue[i]? with
        | some skb => (s.send skb hlen device).map fun sent =>
            { s with mem := sent.1, spare := sent.2.2 }
        | none => none

/-! ## The loopback copy -/

/-- A buffer with `bs` appended at `offset` of its data. -/
def appended (m : Mbuf) (offset : ℕ) (bs : List UInt8) : Mbuf :=
  { m.write (m.dataOff + offset) bs with dataLen := (m.dataLen + bs.length) % 65536 }

theorem appended_nil {m : Mbuf} (offset : ℕ) (hlen : m.dataLen < 65536) :
    appended m offset [] = m := by
  have hbuf : (m.write (m.dataOff + offset) []).buf = m.buf := by simp [Mbuf.write]
  exact Mbuf.ext rfl (Nat.mod_eq_of_lt hlen) rfl rfl rfl rfl hbuf

theorem appended_append (m : Mbuf) (offset : ℕ) (as bs : List UInt8) :
    appended (appended m offset as) (offset + as.length) bs = appended m offset (as ++ bs) := by
  have hplace : m.dataOff + (offset + as.length) = m.dataOff + offset + as.length :=
    (Nat.add_assoc _ _ _).symm
  have hbuf : ((appended m offset as).write (m.dataOff + (offset + as.length)) bs).buf =
      (m.write (m.dataOff + offset) (as ++ bs)).buf := by
    have hwrite := congrArg Mbuf.buf (m.write_append (m.dataOff + offset) as bs)
    rw [hplace]
    exact hwrite
  have hlen : ((m.dataLen + as.length) % 65536 + bs.length) % 65536 =
      (m.dataLen + (as ++ bs).length) % 65536 := by
    rw [List.length_append]
    omega
  exact Mbuf.ext rfl hlen rfl rfl rfl rfl hbuf

theorem data_appended (m : Mbuf) (hempty : m.dataLen = 0) (bs : List UInt8) :
    (appended m 0 bs).data = bs.take (bs.length % 65536) := by
  show (m.write (m.dataOff + 0) bs).slice m.dataOff ((m.dataLen + bs.length) % 65536) = _
  rw [hempty, Nat.zero_add]
  exact m.slice_write m.dataOff bs (Nat.mod_le _ _)

/-- What the copy loop does: the whole data of every buffer, appended in order.
Contents of other buffers and links outside the segment stay. -/
theorem copyFrags_spec (M : MbufMem) {copied prev : ℕ} (offset : ℕ) {frags : List Frag}
    (hcopied : copied ∉ prev :: frags.map Frag.page)
    (hlen : (M.mbuf copied).dataLen < 65536) :
    ((copyFrags copied M prev offset frags).1.mbuf copied).core =
        (appended (M.mbuf copied) offset
          ((frags.map Frag.page).flatMap fun p => (M.mbuf p).data)).core ∧
      (copyFrags copied M prev offset frags).2 =
        offset + totalLen M (frags.map Frag.page) ∧
      (copyFrags copied M prev offset frags).1.size = M.size ∧
      (∀ i, i ≠ copied →
        ((copyFrags copied M prev offset frags).1.mbuf i).core = (M.mbuf i).core) ∧
      ∀ i, i ∉ prev :: frags.map Frag.page →
        (copyFrags copied M prev offset frags).1.next i = M.next i := by
  induction frags generalizing M prev offset with
  | nil =>
      have hcores := M.cores_setNext prev none
      refine ⟨?_, rfl, rfl, fun i _ => congrFun hcores i, ?_⟩
      · rw [List.map_nil, List.flatMap_nil, appended_nil offset hlen]
        exact congrFun hcores copied
      · intro i hi
        have hne : i ≠ prev := by simpa using hi
        rw [copyFrags, MbufMem.next_setNext, Function.update_of_ne hne]
  | cons f frags ih =>
      simp only [List.map_cons, List.mem_cons, not_or] at hcopied
      obtain ⟨hprev, hpage, hrest⟩ := hcopied
      obtain ⟨r, hlink⟩ := link_counts M prev f
      -- The three steps of one round: link and reference, append, drop.
      obtain ⟨A, hA⟩ : ∃ A, A = skbFragRef (M.setNext prev (some f.page)) f := ⟨_, rfl⟩
      have hAcore : A.cores = M.cores := by
        rw [hA, hlink, MbufMem.cores_withRefcnt, MbufMem.cores_setNext]
      have hAnext : A.next = Function.update M.next prev (some f.page) := by
        rw [hA, hlink, MbufMem.next_withRefcnt, MbufMem.next_setNext]
      obtain ⟨B, hB⟩ : ∃ B, B = A.modify copied fun m =>
          appended m offset (A.mbuf f.page).data := ⟨_, rfl⟩
      obtain ⟨C, hC⟩ : ∃ C, C = B.rtePktmbufFreeSeg f.page := ⟨_, rfl⟩
      have hround : copyFrags copied M prev offset (f :: frags) =
          copyFrags copied C f.page (offset + (A.mbuf f.page).data.length) frags := by
        rw [copyFrags, hC, hB, hA]
        rfl
      have hdata : (A.mbuf f.page).data = (M.mbuf f.page).data := MbufMem.data_congr hAcore _
      have hCcopied : C.mbuf copied = appended (A.mbuf copied) offset (M.mbuf f.page).data := by
        rw [hC, MbufMem.mbuf_rtePktmbufFreeSeg_of_ne _ hpage, hB, MbufMem.modify_self, hdata]
      have hCcore : ∀ i, i ≠ copied → (C.mbuf i).core = (M.mbuf i).core := by
        intro i hi
        have hBcore : (B.mbuf i).core = (A.mbuf i).core := by
          rw [hB, MbufMem.modify_of_ne _ _ hi]
        have hCB : C.cores = B.cores := by rw [hC, MbufMem.cores_rtePktmbufFreeSeg]
        exact (congrFun hCB i).trans (hBcore.trans (congrFun hAcore i))
      have hCdata : ∀ p ∈ frags.map Frag.page, (C.mbuf p).data = (M.mbuf p).data := by
        intro p hp
        have hne : p ≠ copied := fun heq => hrest (heq ▸ hp)
        have hcore := congrArg Mbuf.data (hCcore p hne)
        exact hcore
      have hClen : (C.mbuf copied).dataLen < 65536 := by
        rw [hCcopied]
        exact Nat.mod_lt _ (by decide)
      have hafter : copied ∉ f.page :: frags.map Frag.page := by
        simp only [List.mem_cons, not_or]
        exact ⟨hpage, hrest⟩
      obtain ⟨hbytes, hoffset, hsize, hcores, hnext⟩ :=
        ih C (offset + (A.mbuf f.page).data.length) hafter hClen
      have htotal : totalLen C (frags.map Frag.page) = totalLen M (frags.map Frag.page) := by
        unfold totalLen total
        congr 1
        apply List.map_congr_left
        intro p hp
        have hlength := congrArg List.length (hCdata p hp)
        simpa using hlength
      rw [hround]
      refine ⟨?_, ?_, ?_, ?_, ?_⟩
      · have hpages : ((frags.map Frag.page).flatMap fun p => (C.mbuf p).data) =
            (frags.map Frag.page).flatMap fun p => (M.mbuf p).data :=
          List.flatMap_congr hCdata
        rw [hbytes, hCcopied, hdata, hpages, appended_append, List.map_cons, List.flatMap_cons]
        have hcore : (A.mbuf copied).core = (M.mbuf copied).core := congrFun hAcore copied
        have happend := congrArg (fun m => (appended m offset ((M.mbuf f.page).data ++
          (frags.map Frag.page).flatMap fun p => (M.mbuf p).data)).core) hcore
        exact happend
      · rw [hoffset, hdata, htotal, Mbuf.length_data]
        simp [totalLen, Nat.add_assoc]
      · rw [hsize, hC, MbufMem.size_rtePktmbufFreeSeg, hB, MbufMem.size_modify, hA, hlink]
        rfl
      · intro i hi
        rw [hcores i hi, hCcore i hi]
      · intro i hi
        simp only [List.map_cons, List.mem_cons, not_or] at hi
        rw [hnext i (by simpa using hi.2), hC,
          MbufMem.next_rtePktmbufFreeSeg_of_ne _ _ _ hi.2.1, hB, MbufMem.next_modify _ _ rfl,
          hAnext, Function.update_of_ne hi.1]

/-! ## The invariant of reshaping -/

/-- How far a step may reach: links of `ids` and contents of `heads`. -/
structure Keeps (M M' : MbufMem) (ids heads : List ℕ) : Prop where
  size : M'.size = M.size
  next : ∀ i, i ∉ ids → M'.next i = M.next i
  cores : ∀ i, i ∉ heads → (M'.mbuf i).core = (M.mbuf i).core

/-- The invariant: segments of the stream, contents of its buffers untouched,
header and spare buffers that are not among them. -/
structure ReshapeInv (M₀ : MbufMem) (pages : List ℕ) (seq₀ : ℕ) (s : ReshapeState) : Prop where
  segments : ∀ skb ∈ s.queue, Segment M₀ pages seq₀ skb
  heads : ∀ skb ∈ s.queue, ∃ head, skb.headerMbuf = some head ∧ head ∉ pages ∧
    head ∉ s.spare ∧ head < s.mem.size
  contents : ∀ p ∈ pages, (s.mem.mbuf p).core = (M₀.mbuf p).core
  inRange : ∀ p ∈ pages, p < s.mem.size
  spareApart : ∀ i ∈ s.spare, i ∉ pages
  spareInRange : ∀ i ∈ s.spare, i < s.mem.size
  spareUnlinked : ∀ i ∈ s.spare, s.mem.next i = none
  spareNodup : s.spare.Nodup

/-! ### Frames of the two drivers -/

/-- How much of a packet of `n` bytes fits the frame: the loopback copy counts
its length in 16 bits. -/
def frameRoom (device : Device) (n : ℕ) : ℕ :=
  match device with
  | .dpdk => n
  | .lpbkdpdk => n % 65536

section Sending

variable {M₀ : MbufMem} {pages : List ℕ} {seq₀ : ℕ} {s : ReshapeState} {skb : Skb}

/-- Data of the buffers of a segment, now and when the segment was built. -/
theorem ReshapeInv.data_eq (hinv : ReshapeInv M₀ pages seq₀ s) {p : ℕ} (hp : p ∈ pages) :
    (s.mem.mbuf p).data = (M₀.mbuf p).data := by
  have hcore := congrArg Mbuf.data (hinv.contents p hp)
  exact hcore

theorem ReshapeInv.totalLen_eq (hinv : ReshapeInv M₀ pages seq₀ s) {ps : List ℕ}
    (hps : ps.Sublist pages) : totalLen s.mem ps = totalLen M₀ ps := by
  unfold totalLen total
  congr 1
  apply List.map_congr_left
  intro p hp
  have hlength := congrArg List.length (hinv.data_eq (hps.subset hp))
  simpa using hlength

theorem skbHeadlen_skbPush (hdataLen : skb.dataLen = skb.len) {hlen : ℕ}
    (hhlen : hlen ≤ maxTcpHeader) : (skbPush skb hlen).skbHeadlen % 65536 = hlen := by
  have hroom : maxTcpHeader < 65536 := by decide
  have heq : (skbPush skb hlen).skbHeadlen = hlen := by
    simp [skbPush, Skb.skbHeadlen, hdataLen]
  rw [heq]
  exact Nat.mod_eq_of_lt (Nat.lt_of_le_of_lt hhlen hroom)

/-- The frame of the port: headers and whole buffers. -/
theorem ReshapeInv.send_dpdk (hinv : ReshapeInv M₀ pages seq₀ s) (hnodup : pages.Nodup)
    (hskb : skb ∈ s.queue) {hlen head : ℕ} (hhlen : hlen ≤ maxTcpHeader)
    (hhead : skb.headerMbuf = some head) (hapart : head ∉ pages) (hsize : head < s.mem.size) :
    Keeps s.mem (tcpTransmitSkb s.mem skb hlen head).1 (head :: skb.pages) [head] ∧
      (∃ headers : List UInt8, headers.length = hlen ∧
        (frameAt (tcpTransmitSkb s.mem skb hlen head).1 head).bytes =
          headers ++ skb.pages.flatMap fun p => (M₀.mbuf p).data) ∧
      (frameAt (tcpTransmitSkb s.mem skb hlen head).1 head).pktLen =
        hlen + totalLen M₀ skb.pages := by
  have hseg := hinv.segments skb hskb
  have hheadNot : head ∉ skb.pages := fun hmem => hapart (hseg.sublist.subset hmem)
  have hpagesNodup : skb.pages.Nodup := hseg.sublist.nodup hnodup
  have hchain : (head :: skb.pages).Nodup := List.nodup_cons.mpr ⟨hheadNot, hpagesNodup⟩
  have hlength := skbHeadlen_skbPush hseg.dataLen_eq hhlen
  have hsent := tcpTransmitSkb_frame s.mem hlen hchain hseg.dataref_eq
  have hfit : (head :: skb.pages).length ≤ (tcpTransmitSkb s.mem skb hlen head).1.size := by
    rw [hsent.size]
    apply MbufMem.length_le_size hchain
    intro i hi
    rcases List.mem_cons.mp hi with rfl | hpage
    · exact hsize
    · exact hinv.inRange i (hseg.sublist.subset hpage)
  refine ⟨⟨hsent.size, hsent.next, ?_⟩, ?_, ?_⟩
  · intro i hi
    exact hsent.cores i (by simpa using hi)
  · refine ⟨((tcpTransmitSkb s.mem skb hlen head).1.mbuf head).data, ?_, ?_⟩
    · rw [Mbuf.length_data, hsent.headLen, hlength]
    · show MbufMem.chainBytes _ _ _ = _
      rw [MbufMem.chainBytes_eq_flatMap _ hsent.linked hfit, List.flatMap_cons]
      congr 1
      apply List.flatMap_congr
      intro p hp
      have hne : p ≠ head := fun heq => hheadNot (heq ▸ hp)
      have hcore := congrArg Mbuf.data (hsent.cores p hne)
      exact hcore.trans (hinv.data_eq (hseg.sublist.subset hp))
  · show ((tcpTransmitSkb s.mem skb hlen head).1.mbuf head).pktLen = _
    rw [hsent.pktLen, hlength, hinv.totalLen_eq hseg.sublist]

/-- The frame of the loopback device: the same bytes in one buffer, cut to its
16-bit length. -/
theorem ReshapeInv.send_lpbkdpdk (hinv : ReshapeInv M₀ pages seq₀ s)
    (hskb : skb ∈ s.queue) {hlen head copied : ℕ} (hhlen : hlen ≤ maxTcpHeader)
    (hheadApart : head ∉ pages) (hne : copied ≠ head) (hapart : copied ∉ pages)
    (hsize : copied < s.mem.size) (hunlinked : s.mem.next copied = none)
    {M' : MbufMem} (hM' : M' = (lpbkdpdkXmitFrame (skbClone s.mem skb).1
      (skbPush (skbClone s.mem skb).2.2 hlen) head copied).1) :
    Keeps s.mem M' (head :: skb.pages) [head, copied] ∧
      (∃ headers : List UInt8, headers.length = hlen ∧
        (frameAt M' copied).bytes =
          (headers ++ skb.pages.flatMap fun p => (M₀.mbuf p).data).take
            ((hlen + totalLen M₀ skb.pages) % 65536)) ∧
      (frameAt M' copied).pktLen = hlen + totalLen M₀ skb.pages := by
  have hseg := hinv.segments skb hskb
  have hlength := skbHeadlen_skbPush hseg.dataLen_eq hhlen
  have hcopiedNot : copied ∉ head :: skb.pages := by
    simp only [List.mem_cons, not_or]
    exact ⟨hne, fun hmem => hapart (hseg.sublist.subset hmem)⟩
  obtain ⟨r, hclone⟩ := skbClone_counts s.mem skb
  obtain ⟨A, hA⟩ : ∃ A, A = setupHead (skbClone s.mem skb).1 head
      (skbPush (skbClone s.mem skb).2.2 hlen) := ⟨_, rfl⟩
  obtain ⟨headers, hheaders⟩ : ∃ headers, headers = (A.mbuf head).data := ⟨_, rfl⟩
  have hheadersLen : headers.length = hlen := by
    rw [hheaders, Mbuf.length_data, hA, setupHead, MbufMem.modify_self]
    exact hlength
  have hAcopied : (A.mbuf copied).core = (s.mem.mbuf copied).core := by
    rw [hA, setupHead, MbufMem.modify_of_ne _ _ hne, hclone]
    rfl
  have hAcore : ∀ i, i ≠ head → (A.mbuf i).core = (s.mem.mbuf i).core := by
    intro i hi
    rw [hA, setupHead, MbufMem.modify_of_ne _ _ hi, hclone]
    rfl
  have hAnext : A.next = s.mem.next := by
    rw [hA, setupHead, MbufMem.next_modify _ _ rfl, hclone, MbufMem.next_withRefcnt]
  have hAsize : A.size = s.mem.size := by
    rw [hA, setupHead, MbufMem.size_modify, hclone]
    rfl
  obtain ⟨B, hB⟩ : ∃ B, B = A.modify copied fun m =>
      { m.write m.dataOff headers with dataLen := headers.length } := ⟨_, rfl⟩
  obtain ⟨C, hC⟩ : ∃ C, C = B.rtePktmbufFreeSeg head := ⟨_, rfl⟩
  have hBcopied : B.mbuf copied = appended { A.mbuf copied with dataLen := 0 } 0 headers := by
    have hroom : headers.length % 65536 = headers.length := by
      apply Nat.mod_eq_of_lt
      rw [hheadersLen]
      exact Nat.lt_of_le_of_lt hhlen (by decide)
    rw [hB, MbufMem.modify_self]
    refine Mbuf.ext rfl ?_ rfl rfl rfl rfl rfl
    show headers.length = (0 + headers.length) % 65536
    rw [Nat.zero_add, hroom]
  have hCcopied : C.mbuf copied = appended { A.mbuf copied with dataLen := 0 } 0 headers := by
    rw [hC, MbufMem.mbuf_rtePktmbufFreeSeg_of_ne _ hne, hBcopied]
  have hCcore : ∀ i, i ∉ [head, copied] → (C.mbuf i).core = (s.mem.mbuf i).core := by
    intro i hi
    simp only [List.mem_cons, List.not_mem_nil, or_false, not_or] at hi
    rw [hC, MbufMem.mbuf_rtePktmbufFreeSeg_of_ne _ hi.1, hB, MbufMem.modify_of_ne _ _ hi.2]
    exact hAcore i hi.1
  have hCnext : ∀ i, i ≠ head → C.next i = s.mem.next i := by
    intro i hi
    rw [hC, MbufMem.next_rtePktmbufFreeSeg_of_ne _ _ _ hi, hB, MbufMem.next_modify _ _ rfl, hAnext]
  have hCsize : C.size = s.mem.size := by
    rw [hC, MbufMem.size_rtePktmbufFreeSeg, hB, MbufMem.size_modify, hAsize]
  have hClen : (C.mbuf copied).dataLen < 65536 := by
    rw [hCcopied]
    exact Nat.mod_lt _ (by decide)
  have hCdata : ∀ p ∈ skb.pages, (C.mbuf p).data = (M₀.mbuf p).data := by
    intro p hp
    have hpage := hseg.sublist.subset hp
    have hnot : p ∉ [head, copied] := by
      simp only [List.mem_cons, List.not_mem_nil, or_false, not_or]
      exact ⟨fun heq => hheadApart (heq ▸ hpage), fun heq => hapart (heq ▸ hpage)⟩
    have hcore := congrArg Mbuf.data (hCcore p hnot)
    exact hcore.trans (hinv.data_eq hpage)
  have hCtotal : totalLen C skb.pages = totalLen M₀ skb.pages := by
    unfold totalLen total
    congr 1
    apply List.map_congr_left
    intro p hp
    have hlen := congrArg List.length (hCdata p hp)
    simpa using hlen
  obtain ⟨hbytes, hoffset, hsizeD, hcoresD, hnextD⟩ :=
    copyFrags_spec C headers.length hcopiedNot hClen
  obtain ⟨D, hD⟩ : ∃ D, D = copyFrags copied C head headers.length skb.shinfo.frags := ⟨_, rfl⟩
  rw [← hD] at hbytes hoffset hsizeD hcoresD hnextD
  have hfinal : M' = D.1.modify copied fun m => { m with pktLen := D.2 } := by
    rw [hM', lpbkdpdkXmitFrame, ← hA]
    dsimp only
    rw [← hheaders, ← hB, ← hC,
      show (skbPush (skbClone s.mem skb).2.2 hlen).shinfo.frags = skb.shinfo.frags from rfl, ← hD,
      skbReleaseData_clone]
    · rfl
    · rfl
    · show skb.shinfo.dataref + 1 = skbDatarefUnit + 2
      rw [hseg.dataref_eq]
      rfl
  have hnext : M'.next = D.1.next := by rw [hfinal, MbufMem.next_modify _ _ rfl]
  have hdata : (M'.mbuf copied).data =
      (headers ++ skb.pages.flatMap fun p => (M₀.mbuf p).data).take
        ((hlen + totalLen M₀ skb.pages) % 65536) := by
    have hpagesData : (skb.pages.flatMap fun p => (C.mbuf p).data) =
        skb.pages.flatMap fun p => (M₀.mbuf p).data := List.flatMap_congr hCdata
    have hcontents : (D.1.mbuf copied).core = (appended { A.mbuf copied with dataLen := 0 } 0
        (headers ++ skb.pages.flatMap fun p => (M₀.mbuf p).data)).core := by
      rw [hbytes, hCcopied]
      show (appended (appended _ 0 headers) headers.length
        (skb.pages.flatMap fun p => (C.mbuf p).data)).core = _
      rw [hpagesData]
      have hjoin := appended_append { A.mbuf copied with dataLen := 0 } 0 headers
        (skb.pages.flatMap fun p => (M₀.mbuf p).data)
      rw [Nat.zero_add] at hjoin
      rw [hjoin]
    have hroom : (headers ++ skb.pages.flatMap fun p => (M₀.mbuf p).data).length =
        hlen + totalLen M₀ skb.pages := by
      rw [List.length_append, hheadersLen, List.length_flatMap]
      simp [totalLen, total]
    have hread := congrArg Mbuf.data hcontents
    rw [hfinal, MbufMem.modify_self]
    refine Eq.trans hread ?_
    rw [← hroom]
    exact data_appended { A.mbuf copied with dataLen := 0 } rfl _
  refine ⟨⟨?_, ?_, ?_⟩, ⟨headers, hheadersLen, ?_⟩, ?_⟩
  · rw [hfinal, MbufMem.size_modify, hsizeD, hCsize]
  · intro i hi
    have hi' : i ≠ head := fun heq => hi (by simp [heq])
    rw [hnext, hnextD i hi, hCnext i hi']
  · intro i hi
    have hi' : i ≠ copied := fun heq => hi (by simp [heq])
    rw [hfinal, MbufMem.modify_of_ne _ _ hi', hcoresD i hi', hCcore i hi]
  · have hsingle : Linked M'.next (some copied) [copied] := by
      refine ⟨rfl, ?_⟩
      show M'.next copied = none
      rw [hnext, hnextD copied hcopiedNot, hCnext copied hne, hunlinked]
    have hfit : [copied].length ≤ M'.size := by
      rw [hfinal, MbufMem.size_modify, hsizeD, hCsize]
      simp only [List.length_singleton]
      omega
    show MbufMem.chainBytes _ _ _ = _
    rw [MbufMem.chainBytes_eq_flatMap _ hsingle hfit, List.flatMap_singleton, hdata]
  · show (M'.mbuf copied).pktLen = _
    rw [hfinal, MbufMem.modify_self]
    show D.2 = _
    rw [hoffset, hheadersLen]
    exact congrArg _ hCtotal

/-- **One transmission.**  The frame holds the headers and the whole data of the
segment's buffers, as far as the device's length goes. -/
theorem ReshapeInv.send (hinv : ReshapeInv M₀ pages seq₀ s) (hnodup : pages.Nodup)
    (hskb : skb ∈ s.queue) {hlen : ℕ} {device : Device} {M' : MbufMem} {frame : Frame}
    {spare : List ℕ} (hsend : s.send skb hlen device = some (M', frame, spare)) :
    (∃ ids heads, Keeps s.mem M' ids heads ∧ (∀ i ∈ ids, i ∉ spare) ∧ ∀ p ∈ pages, p ∉ heads) ∧
      spare.Sublist s.spare ∧ hlen ≤ maxTcpHeader ∧
      (∃ headers : List UInt8, headers.length = hlen ∧
        frame.bytes = (headers ++ skb.pages.flatMap fun p => (M₀.mbuf p).data).take
          (frameRoom device (hlen + totalLen M₀ skb.pages))) ∧
      frame.pktLen = hlen + totalLen M₀ skb.pages := by
  have hseg := hinv.segments skb hskb
  obtain ⟨head, hhead, hheadPages, hheadSpare, hheadSize⟩ := hinv.heads skb hskb
  unfold ReshapeState.send at hsend
  by_cases hroom : skb.headroom < hlen
  · simp [hroom] at hsend
  rw [if_neg hroom] at hsend
  have hhlen : hlen ≤ maxTcpHeader := by
    rw [← hseg.headroom_eq]
    omega
  cases device with
  | dpdk =>
      simp only [hhead, Option.some.injEq, Prod.mk.injEq] at hsend
      obtain ⟨rfl, rfl, rfl⟩ := hsend
      obtain ⟨hkeeps, ⟨headers, hlength, hbytes⟩, hpktLen⟩ :=
        hinv.send_dpdk hnodup hskb hhlen hhead hheadPages hheadSize
      refine ⟨⟨_, _, hkeeps, ?_, ?_⟩, List.Sublist.refl _, hhlen, ⟨headers, hlength, ?_⟩, hpktLen⟩
      · intro i hi hspare
        rcases List.mem_cons.mp hi with rfl | hpage
        · exact hheadSpare hspare
        · exact hinv.spareApart i hspare (hseg.sublist.subset hpage)
      · intro p hp hmem
        rw [List.mem_singleton] at hmem
        exact hheadPages (hmem ▸ hp)
      · rw [hbytes, frameRoom, List.take_of_length_le]
        rw [List.length_append, hlength, List.length_flatMap]
        simp [totalLen, total]
  | lpbkdpdk =>
      cases hspare : s.spare with
      | nil => simp [hhead, hspare] at hsend
      | cons copied rest =>
          simp only [hhead, hspare, Option.some.injEq, Prod.mk.injEq] at hsend
          obtain ⟨hM', rfl, rfl⟩ := hsend
          have hcopied : copied ∈ s.spare := by simp [hspare]
          have hne : copied ≠ head := fun heq => hheadSpare (heq ▸ hcopied)
          have hnodupSpare := hinv.spareNodup
          rw [hspare, List.nodup_cons] at hnodupSpare
          have hspec := hinv.send_lpbkdpdk hskb hhlen hheadPages hne
            (hinv.spareApart copied hcopied) (hinv.spareInRange copied hcopied)
            (hinv.spareUnlinked copied hcopied) rfl
          rw [hM'] at hspec ⊢
          obtain ⟨hkeeps, ⟨headers, hlength, hbytes⟩, hpktLen⟩ := hspec
          refine ⟨⟨_, _, hkeeps, ?_, ?_⟩, List.sublist_cons_self _ _, hhlen,
            ⟨headers, hlength, hbytes⟩, hpktLen⟩
          · intro i hi hmem
            have hmemSpare : i ∈ s.spare := by simp [hspare, hmem]
            rcases List.mem_cons.mp hi with rfl | hpage
            · exact hheadSpare hmemSpare
            · exact hinv.spareApart i hmemSpare (hseg.sublist.subset hpage)
          · intro p hp hmem
            simp only [List.mem_cons, List.not_mem_nil, or_false] at hmem
            rcases hmem with rfl | rfl
            · exact hheadPages hp
            · exact hinv.spareApart p hcopied hp

end Sending

/-! ### Every step keeps the invariant -/

section Steps

variable {M₀ : MbufMem} {pages : List ℕ} {seq₀ : ℕ} {s t : ReshapeState}

theorem ReshapeInv.of_keeps (hinv : ReshapeInv M₀ pages seq₀ s) {M' : MbufMem}
    {ids heads spare : List ℕ} {queue : List Skb} (hkeeps : Keeps s.mem M' ids heads)
    (hids : ∀ i ∈ ids, i ∉ spare) (hheads : ∀ p ∈ pages, p ∉ heads)
    (hspare : spare.Sublist s.spare) (hsegments : ∀ skb ∈ queue, Segment M₀ pages seq₀ skb)
    (hheaders : ∀ skb ∈ queue, ∃ head, skb.headerMbuf = some head ∧ head ∉ pages ∧
      head ∉ spare ∧ head < s.mem.size) :
    ReshapeInv M₀ pages seq₀ { mem := M', queue, spare } where
  segments := hsegments
  heads := by
    intro skb hskb
    rw [hkeeps.size]
    exact hheaders skb hskb
  contents := by
    intro p hp
    rw [hkeeps.cores p (hheads p hp)]
    exact hinv.contents p hp
  inRange := by
    intro p hp
    rw [hkeeps.size]
    exact hinv.inRange p hp
  spareApart := fun i hi => hinv.spareApart i (hspare.subset hi)
  spareInRange := by
    intro i hi
    rw [hkeeps.size]
    exact hinv.spareInRange i (hspare.subset hi)
  spareUnlinked := by
    intro i hi
    rw [hkeeps.next i fun hmem => hids i hmem hi]
    exact hinv.spareUnlinked i (hspare.subset hi)
  spareNodup := hspare.nodup hinv.spareNodup

theorem ReshapeInv.step {mem : MbufMem} {skb₀ : Skb} {spare₀ : List ℕ}
    (hinv : ReshapeInv M₀ pages seq₀ s) (hnodup : pages.Nodup)
    (hsmall : totalLen M₀ pages < 2 ^ 32) (label : ReshapeStep)
    (hstep : (reshapeMachine mem skb₀ spare₀).step s label = some t) :
    ReshapeInv M₀ pages seq₀ t := by
  cases label with
  | fragment i len =>
      cases hget : s.queue[i]? with
      | none => simp [reshapeMachine, hget] at hstep
      | some skb =>
          have hskb : skb ∈ s.queue := List.mem_of_getElem? hget
          cases hspare : s.spare with
          | nil => simp [reshapeMachine, hget, hspare] at hstep
          | cons header rest =>
              simp only [reshapeMachine, hget, hspare] at hstep
              by_cases hlen : 0 < len ∧ len < skb.len
              · rw [if_pos hlen, Option.map_eq_some_iff] at hstep
                obtain ⟨⟨M', skb', buff⟩, hcut, rfl⟩ := hstep
                obtain ⟨hfirst, hsecond, hfirstHead, hsecondHead, r, rfl⟩ :=
                  (hinv.segments skb hskb).tcpFragment hsmall hlen.2 hcut
                have hheader : header ∈ s.spare := by simp [hspare]
                have hnodupSpare := hinv.spareNodup
                rw [hspare, List.nodup_cons] at hnodupSpare
                have hkeeps : Keeps s.mem (s.mem.withRefcnt r) [] [] :=
                  ⟨rfl, fun _ _ => rfl, fun _ _ => rfl⟩
                have hqueue : ∀ seg ∈ s.queue.take i ++ skb' :: buff :: s.queue.drop (i + 1),
                    seg ∈ s.queue ∨ seg = skb' ∨ seg = buff := by
                  intro seg hseg
                  simp only [List.mem_append, List.mem_cons] at hseg
                  rcases hseg with htake | rfl | rfl | hdrop
                  · exact .inl (List.mem_of_mem_take htake)
                  · exact .inr (.inl rfl)
                  · exact .inr (.inr rfl)
                  · exact .inl (List.mem_of_mem_drop hdrop)
                have hold : ∀ seg ∈ s.queue, ∃ head, seg.headerMbuf = some head ∧
                    head ∉ pages ∧ head ∉ rest ∧ head < s.mem.size := by
                  intro seg hseg
                  obtain ⟨head, hhead, hpages, hnot, hsize⟩ := hinv.heads seg hseg
                  refine ⟨head, hhead, hpages, fun hmem => hnot ?_, hsize⟩
                  simp [hspare, hmem]
                apply hinv.of_keeps hkeeps (by simp) (by simp)
                · rw [hspare]
                  exact List.sublist_cons_self _ _
                · intro seg hseg
                  rcases hqueue seg hseg with hmem | rfl | rfl
                  · exact hinv.segments seg hmem
                  · exact hfirst
                  · exact hsecond
                · intro seg hseg
                  rcases hqueue seg hseg with hmem | rfl | rfl
                  · exact hold seg hmem
                  · rw [hfirstHead]
                    exact hold skb hskb
                  · exact ⟨header, hsecondHead, hinv.spareApart header hheader, hnodupSpare.1,
                      hinv.spareInRange header hheader⟩
              · simp [hlen] at hstep
  | trimHead i len =>
      cases hget : s.queue[i]? with
      | none => simp [reshapeMachine, hget] at hstep
      | some skb =>
          have hskb : skb ∈ s.queue := List.mem_of_getElem? hget
          simp only [reshapeMachine, hget] at hstep
          by_cases hlen : len ≤ skb.len
          · rw [if_pos hlen, Option.some.injEq] at hstep
            subst hstep
            obtain ⟨htrimmed, hheader, hmem⟩ :=
              (hinv.segments skb hskb).tcpTrimHead (M := s.mem) hsmall hlen
            have hkeeps : Keeps s.mem (tcpTrimHead s.mem skb len).1 skb.pages [] := by
              rw [hmem]
              exact ⟨size_trimFrags _ _ _, fun i hi => next_trimFrags _ _ hi,
                fun i _ => congrFun (cores_trimFrags _ _ _) i⟩
            apply hinv.of_keeps hkeeps
            · intro j hj hspare
              exact hinv.spareApart j hspare ((hinv.segments skb hskb).sublist.subset hj)
            · simp
            · exact List.Sublist.refl _
            · intro seg hseg
              rcases List.mem_or_eq_of_mem_set hseg with hmem | rfl
              · exact hinv.segments seg hmem
              · exact htrimmed
            · intro seg hseg
              rcases List.mem_or_eq_of_mem_set hseg with hmem | rfl
              · exact hinv.heads seg hmem
              · rw [hheader]
                exact hinv.heads skb hskb
          · simp [hlen] at hstep
  | transmit i hlen device =>
      cases hget : s.queue[i]? with
      | none => simp [reshapeMachine, hget] at hstep
      | some skb =>
          have hskb : skb ∈ s.queue := List.mem_of_getElem? hget
          simp only [reshapeMachine, hget, Option.map_eq_some_iff] at hstep
          obtain ⟨⟨M', frame, spare⟩, hsend, rfl⟩ := hstep
          obtain ⟨⟨ids, heads, hkeeps, hids, hheads⟩, hspare, -⟩ := hinv.send hnodup hskb hsend
          apply hinv.of_keeps hkeeps hids hheads hspare hinv.segments
          intro seg hseg
          obtain ⟨head, hhead, hpages, hnot, hsize⟩ := hinv.heads seg hseg
          exact ⟨head, hhead, hpages, fun hmem => hnot (hspare.subset hmem), hsize⟩

end Steps

/-! ## The frames of a built segment -/

/-- The buffers that later allocations return: distinct, unlinked, and not in
use by the segment. -/
structure SpareInput (M : MbufMem) (skb : Skb) (spare : List ℕ) : Prop where
  nodup : spare.Nodup
  apart : ∀ i ∈ spare, i ∉ skb.pages
  headApart : ∀ i ∈ spare, skb.headerMbuf ≠ some i
  inRange : ∀ i ∈ spare, i < M.size
  unlinked : ∀ i ∈ spare, M.next i = none

/-- The 16-bit lengths of at most `MAX_SKB_FRAGS` buffers stay far below the
sequence space. -/
theorem totalLen_lt (M : MbufMem) {ps : List ℕ} (hcount : ps.length ≤ maxSkbFrags)
    (hshort : ∀ p ∈ ps, (M.mbuf p).dataLen < 65536) : totalLen M ps < 2 ^ 32 := by
  have hbound : totalLen M ps ≤ ps.length * 65536 := by
    clear hcount
    induction ps with
    | nil => exact Nat.zero_le _
    | cons p ps ih =>
        have hhead := hshort p (by simp)
        have htail := ih fun q hq => hshort q (by simp [hq])
        unfold totalLen at htail ⊢
        rw [total_cons, List.length_cons]
        omega
  have hmax : maxSkbFrags = 32 := rfl
  omega

theorem ReshapeInv.init {M₀ M : MbufMem} {skb : Skb} {head : ℕ} {spare : List ℕ}
    (hbuilt : skb.Built M₀ M head) (hsmall : totalLen M₀ skb.pages < 2 ^ 32)
    (hspare : SpareInput M skb spare) :
    ReshapeInv M₀ skb.pages skb.seq (reshapeMachine M skb spare).init := by
  have hzero : seqOffset skb.seq skb.seq = 0 := seqOffset_self _
  have hlen := hbuilt.len_eq
  have hend : seqOffset skb.seq skb.endSeq = totalLen M₀ skb.pages := by
    rw [hbuilt.endSeq_eq, seqOffset_seqAdd _ _ _ (by omega), hzero, hlen, Nat.zero_add]
  have hcover : Cover M₀ skb.pages skb.shinfo.frags 0 (totalLen M₀ skb.pages) := by
    rw [hbuilt.frags]
    exact @cover_wholeFrags M₀ [] skb.pages hbuilt.nodup
  exact
    { segments := by
        intro seg hseg
        obtain rfl : seg = skb := List.mem_singleton.mp hseg
        exact
          { cover := by
              rw [hzero, hend]
              exact hcover
            sublist := List.Sublist.refl _
            bound := Nat.le_of_eq hend
            len_eq := by rw [hzero, hend, hlen, Nat.zero_add]
            dataLen_eq := hbuilt.dataLen_eq
            headroom_eq := hbuilt.headroom_eq
            dataref_eq := hbuilt.dataref_eq }
      heads := by
        intro seg hseg
        obtain rfl : seg = skb := List.mem_singleton.mp hseg
        refine ⟨head, hbuilt.header, hbuilt.headApart, ?_, hbuilt.inRange head (by simp)⟩
        exact fun hmem => hspare.headApart head hmem hbuilt.header
      contents := by
        intro p hp
        show (M.mbuf p).core = _
        rw [hbuilt.kept p hp]
        rfl
      inRange := fun p hp => hbuilt.inRange p (by simp [hp])
      spareApart := hspare.apart
      spareInRange := hspare.inRange
      spareUnlinked := hspare.unlinked
      spareNodup := hspare.nodup }

/-- The bytes and the length of a frame against its segment. -/
theorem ReshapeInv.frame_iff {M₀ : MbufMem} {pages : List ℕ} {seq₀ : ℕ} {s : ReshapeState}
    (hinv : ReshapeInv M₀ pages seq₀ s) (hnodup : pages.Nodup) {skb : Skb} (hskb : skb ∈ s.queue)
    {hlen : ℕ} {device : Device} {M' : MbufMem} {frame : Frame} {spare : List ℕ}
    (hsend : s.send skb hlen device = some (M', frame, spare)) :
    (frame.bytes.drop hlen =
          streamBytes M₀ pages (seqOffset seq₀ skb.seq) (seqOffset seq₀ skb.endSeq) ∧
        frame.pktLen = (skbPush skb hlen).len) ↔
      (skb.len = 0 ∨ OnBoundary M₀ pages (seqOffset seq₀ skb.seq) ∧
          OnBoundary M₀ pages (seqOffset seq₀ skb.endSeq)) ∧
        (device = .lpbkdpdk → hlen + skb.len < 65536) := by
  have hseg := hinv.segments skb hskb
  have hlen_eq := hseg.len_eq
  obtain ⟨-, -, hhlen, ⟨headers, hheaders, hbytes⟩, hpktLen⟩ := hinv.send hnodup hskb hsend
  have hpagesNodup : (skb.shinfo.frags.map Frag.page).Nodup := hseg.sublist.nodup hnodup
  have hsum := hseg.cover.length_eq
  have hpush : (skbPush skb hlen).len = skb.len + hlen := rfl
  have hdataLen : (skb.pages.flatMap fun p => (M₀.mbuf p).data).length =
      totalLen M₀ skb.pages := by
    rw [List.length_flatMap]
    simp [totalLen, total]
  have hmax : maxTcpHeader < 65536 := by decide
  constructor
  · rintro ⟨hpayload, hlength⟩
    have htotal : totalLen M₀ skb.pages = skb.len := by omega
    have hwhole : Whole M₀ skb.shinfo.frags := by
      apply hseg.cover.whole_of_total
      show _ + totalLen M₀ skb.pages ≤ _
      omega
    constructor
    · by_cases hempty : skb.len = 0
      · exact .inl hempty
      · refine .inr (hseg.cover.boundary_of_whole hwhole fun hnil => ?_)
        rw [hnil] at hsum
        simp only [List.map_nil, List.sum_nil] at hsum
        omega
    · rintro rfl
      have hcount := congrArg List.length hpayload
      rw [← hseg.cover.fragBytes_eq, length_fragBytes, hbytes, List.length_drop] at hcount
      have hroom := List.length_take_le (frameRoom .lpbkdpdk (hlen + totalLen M₀ skb.pages))
        (headers ++ skb.pages.flatMap fun p => (M₀.mbuf p).data)
      have hwrap : frameRoom .lpbkdpdk (hlen + totalLen M₀ skb.pages) < 65536 :=
        Nat.mod_lt _ (by decide)
      by_contra hlong
      omega
  · rintro ⟨hboundary, hshort⟩
    have hwhole : Whole M₀ skb.shinfo.frags := by
      rcases hboundary with hempty | ⟨hlo, hhi⟩
      · have hcover := hseg.cover
        rw [← hlen_eq, hempty, Nat.add_zero] at hcover
        exact hcover.whole_of_empty
      · exact hseg.cover.whole_of_boundary hpagesNodup hlo hhi
    have htotal : totalLen M₀ skb.pages = skb.len := by
      have hsizes := hwhole.totalLen_eq
      have hpages : totalLen M₀ skb.pages = totalLen M₀ (skb.shinfo.frags.map Frag.page) := rfl
      omega
    have hroom : frameRoom device (hlen + totalLen M₀ skb.pages) =
        (headers ++ skb.pages.flatMap fun p => (M₀.mbuf p).data).length := by
      rw [List.length_append, hheaders, hdataLen]
      cases device with
      | dpdk => rfl
      | lpbkdpdk =>
          apply Nat.mod_eq_of_lt
          rw [htotal]
          exact hshort rfl
    refine ⟨?_, by omega⟩
    rw [hbytes, hroom, List.take_length, ← hheaders, List.drop_left, ← hseg.cover.fragBytes_eq,
      hwhole.fragBytes_eq]
    rfl

/-- **Frames and stream.**  After any cuts, trims and transmissions of a segment
of `do_tcp_sendpages`, a frame carries exactly the bytes between the sequence
numbers of its segment, under a `pkt_len` of the segment's length, exactly when
the segment is empty or both numbers lie between two of the buffers that the
application sent, and the loopback copy does not overflow its 16-bit length. -/
theorem frame_carries_stream_iff {M : MbufMem} {headers : List ℕ} {writeSeq : ℕ}
    {start : Option ℕ} {ids : List ℕ} (hinput : SendInput M headers start ids) {skb : Skb}
    (hskb : skb ∈ (doTcpSendpages M headers writeSeq start).queue)
    (hshort : ∀ p ∈ skb.pages, (M.mbuf p).dataLen < 65536) {spare : List ℕ}
    (hspare : SpareInput (doTcpSendpages M headers writeSeq start).mem skb spare)
    {s : ReshapeState}
    (hreach : (reshapeMachine (doTcpSendpages M headers writeSeq start).mem skb spare).Reachable s)
    {seg : Skb} (hseg : seg ∈ s.queue) {hlen : ℕ} {device : Device} {M' : MbufMem}
    {frame : Frame} {spare' : List ℕ}
    (hsend : s.send seg hlen device = some (M', frame, spare')) :
    (frame.bytes.drop hlen = streamBytes M skb.pages (seqOffset skb.seq seg.seq)
          (seqOffset skb.seq seg.endSeq) ∧
        frame.pktLen = (skbPush seg hlen).len) ↔
      (seg.len = 0 ∨ OnBoundary M skb.pages (seqOffset skb.seq seg.seq) ∧
          OnBoundary M skb.pages (seqOffset skb.seq seg.endSeq)) ∧
        (device = .lpbkdpdk → hlen + seg.len < 65536) := by
  obtain ⟨head, hbuilt⟩ := doTcpSendpages_built hinput hskb
  have hsmall := totalLen_lt M hbuilt.count hshort
  have hinv : ReshapeInv M skb.pages skb.seq s := by
    apply Machine.invariant_of_step _ (ReshapeInv.init hbuilt hsmall hspare) _ hreach
    intro u label v hu _ hstep
    exact hu.step hbuilt.nodup hsmall label hstep
  exact hinv.frame_iff hbuilt.nodup hseg hsend

/-! ### A three-byte segment -/

/-- Five fresh buffers: a header buffer, two bytes and one byte of data linked
to each other, and two spare buffers. -/
def fiveBuffers : MbufMem where
  mbuf i :=
    { dataOff := 128, dataLen := if i = 1 then 2 else 1, pktLen := 3, nbSegs := 1,
      next := if i = 1 then some 2 else none, refcnt := 1,
      buf := fun j => UInt8.ofNat (10 * i + (j - 128)) }
  size := 5
  frees := []
  puts := []

/-- The segment that `do_tcp_sendpages` builds from the second and the third. -/
def threeByteSkb : Skb where
  headerMbuf := some 0
  headroom := maxTcpHeader
  len := 3
  dataLen := 3
  seq := 100
  endSeq := 103
  cloned := false
  nohdr := true
  shinfo := { frags := [⟨1, 0, 2⟩, ⟨2, 0, 1⟩], dataref := 65537 }

theorem sendInput_fiveBuffers : SendInput fiveBuffers [0] (some 1) [1, 2] where
  linked := ⟨rfl, rfl, rfl⟩
  distinct := by decide
  headersApart := by decide
  headersInRange := by decide
  headersCount := by
    intro h _
    rfl
  inRange := by decide
  inUse := by
    intro i _
    simp [fiveBuffers]

theorem threeByteSkb_mem_queue :
    threeByteSkb ∈ (doTcpSendpages fiveBuffers [0] 100 (some 1)).queue :=
  List.mem_singleton.mpr rfl

theorem spareInput_fiveBuffers :
    SpareInput (doTcpSendpages fiveBuffers [0] 100 (some 1)).mem threeByteSkb [3, 4] where
  nodup := by decide
  apart := by decide
  headApart := by decide
  inRange := by decide
  unlinked := by decide

/-- Cut between the two buffers, the first half goes out as it should. -/
theorem frame_carries_stream_cut_between :
    ∃ s seg M' frame spare',
      (reshapeMachine (doTcpSendpages fiveBuffers [0] 100 (some 1)).mem threeByteSkb [3, 4]).run
        [.fragment 0 2] = some s ∧ seg ∈ s.queue ∧
      s.send seg 54 .dpdk = some (M', frame, spare') ∧
      frame.bytes.drop 54 = streamBytes fiveBuffers threeByteSkb.pages
        (seqOffset threeByteSkb.seq seg.seq) (seqOffset threeByteSkb.seq seg.endSeq) ∧
      frame.pktLen = (skbPush seg 54).len := by
  refine ⟨_, _, _, _, _, rfl, List.mem_cons_self, rfl, ?_⟩
  refine (frame_carries_stream_iff sendInput_fiveBuffers threeByteSkb_mem_queue ?_
    spareInput_fiveBuffers (@Machine.reachable_of_run _ _ _ [.fragment 0 2] _ rfl)
    List.mem_cons_self (show ReshapeState.send _ _ 54 .dpdk = some _ from rfl)).mpr
      ⟨.inr ⟨?_, ?_⟩, ?_⟩
  · decide
  · exact ⟨[], List.nil_prefix, rfl⟩
  · exact ⟨[1], ⟨[2], rfl⟩, rfl⟩
  · intro h
    exact absurd h (by decide)

/-- Cut inside the first buffer, the first half goes out with the second byte
of that buffer as well. -/
theorem frame_exceeds_segment_cut_inside :
    threeByteSkb ∈ (doTcpSendpages fiveBuffers [0] 100 (some 1)).queue ∧
      ∃ s seg M' frame spare',
        (reshapeMachine (doTcpSendpages fiveBuffers [0] 100 (some 1)).mem threeByteSkb
          [3, 4]).run [.fragment 0 1] = some s ∧ seg ∈ s.queue ∧
        s.send seg 54 .dpdk = some (M', frame, spare') ∧
        streamBytes fiveBuffers threeByteSkb.pages (seqOffset threeByteSkb.seq seg.seq)
          (seqOffset threeByteSkb.seq seg.endSeq) = [10] ∧
        (skbPush seg 54).len = 55 ∧
        frame.bytes.drop 54 = [10, 11] ∧ frame.pktLen = 56 := by
  refine ⟨threeByteSkb_mem_queue, _, _, _, _, _, rfl, List.mem_cons_self, rfl, ?_, ?_, ?_, ?_⟩
  all_goals decide

end IpAugenblick
