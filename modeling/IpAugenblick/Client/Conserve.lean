/-
# A receive call conserves its chains

One `ipaugenblick_receive` takes buffers from the front of what is waiting, the
pending chain first and then the oldest chain of the queue, and hands them to the
application; whatever it does not hand over is pending or waiting afterwards, in
the same order.  The bytes follow the buffers when the request does not end on a
boundary that `ipaugenblick_try_read_exact_amount` gets wrong.
-/

import IpAugenblick.Client.Chains

namespace IpAugenblick

open Lib

theorem rtePktmbufLastseg_eq (M : MbufMem) {p x fuel : ℕ} {pre : List ℕ}
    (hlinked : Linked M.next (some p) (pre ++ [x])) (hfuel : pre.length ≤ fuel) :
    rtePktmbufLastseg M fuel p = x := by
  induction pre generalizing p fuel with
  | nil =>
      obtain ⟨hp, hend⟩ := hlinked
      obtain rfl : p = x := Option.some.inj hp
      rw [Linked.nil_iff] at hend
      cases fuel with
      | zero => rfl
      | succ fuel => simp [rtePktmbufLastseg, hend]
  | cons y pre ih =>
      obtain ⟨hp, htail⟩ := hlinked
      obtain rfl : p = y := Option.some.inj hp
      cases fuel with
      | zero => simp at hfuel
      | succ fuel =>
          rw [rtePktmbufLastseg]
          cases hnext : M.next p with
          | none =>
              rw [hnext] at htail
              simp [Linked.none_iff] at htail
          | some q =>
              rw [hnext] at htail
              exact ih htail (by simpa using hfuel)

/-- The chains of a client: what is pending in the shadow and what waits in the
queue, all distinct buffers in use. -/
structure Chains (c : RxClient) (pend : List ℕ) (chains : List (List ℕ)) : Prop where
  pending : Pending c.mem c.descr pend
  queued : List.Forall₂ (fun p ids => Linked c.mem.next (some p) ids) c.queue chains
  short : ∀ i, (c.mem.mbuf i).dataLen < 65536
  nodup : (pend ++ chains.flatten).Nodup
  inRange : ∀ i ∈ pend ++ chains.flatten, i < c.mem.size

/-- The recorded remainder fits the 16-bit length field it will be written to. -/
def RemainderOk (descr : Shadow) : Prop :=
  descr.shadow ≠ none → descr.shadowLenRemainder < 65536

/-- The request for `n` bytes ends on no boundary that records a wrong length. -/
def receiveOk (M : MbufMem) (descr : Shadow) (pend : List ℕ) (chains : List (List ℕ)) (n : ℕ) :
    Prop :=
  0 < n →
    match pend with
    | [] => ∀ ids, chains.head? = some ids → boundaryOk descr (lensOf M ids) n
    | _ :: rest =>
        boundaryOk descr (descr.shadowLenRemainder :: lensOf M rest) n ∧
          (descr.shadowLenRemainder + (lensOf M rest).sum < n →
            ∀ ids, chains.head? = some ids → boundaryOk descr (lensOf M ids)
              (n - (descr.shadowLenRemainder + (lensOf M rest).sum)))

/-- What a successful receive does with the chains.  Where the buffers go is
unconditional; the bytes follow them when `ok` holds. -/
structure ReceivedAs (c : RxClient) (pend : List ℕ) (chains : List (List ℕ)) (n : ℕ) (ok : Prop)
    (c' : RxClient) (pdesc : ℕ) (own tail pend' : List ℕ) (chains' : List (List ℕ)) : Prop where
  linked : Linked c'.mem.next (some pdesc) (own ++ tail)
  tailOk : TailOk c'.mem pend' tail
  after : Chains c' pend' chains'
  split : pend ++ chains.flatten = own ++ (pend' ++ chains'.flatten)
  size : c'.mem.size = c.mem.size
  frees : c'.mem.frees = c.mem.frees
  kept : ∀ i, i ∉ own ++ pend' → c'.mem.mbuf i = c.mem.mbuf i
  atMost : 0 < n → (lensOf c'.mem (own ++ tail)).sum ≤ n
  remainder : ok → RemainderOk c'.descr
  bytes : ok →
    bytesOf c'.mem (own ++ tail) ++ (pendBytes c'.mem c'.descr pend' ++
        bytesOf c'.mem chains'.flatten) =
      pendBytes c.mem c.descr pend ++ bytesOf c.mem chains.flatten

section Received

variable {c c' : RxClient} {pend own tail pend' : List ℕ} {chains chains' : List (List ℕ)} {n : ℕ}
  {ok : Prop} {pdesc : ℕ}

/-- Buffers outside the chains are left alone. -/
theorem ReceivedAs.others (h : ReceivedAs c pend chains n ok c' pdesc own tail pend' chains')
    {i : ℕ} (hi : i ∉ pend ++ chains.flatten) : c'.mem.mbuf i = c.mem.mbuf i := by
  apply h.kept
  intro hmem
  apply hi
  rw [h.split, ← List.append_assoc]
  exact List.mem_append_left _ hmem

/-- Chains that are still waiting are left alone. -/
theorem ReceivedAs.waiting (h : ReceivedAs c pend chains n ok c' pdesc own tail pend' chains')
    (hnodup : (pend ++ chains.flatten).Nodup) {i : ℕ} (hi : i ∈ chains'.flatten) :
    c'.mem.mbuf i = c.mem.mbuf i := by
  apply h.kept
  intro hmem
  rw [h.split, ← List.append_assoc] at hnodup
  exact (List.nodup_append.mp hnodup).2.2 i hmem i hi rfl

/-- The oldest buffer is handed out or pending afterwards. -/
theorem ReceivedAs.head_mem {x : ℕ} {rest : List ℕ}
    (h : ReceivedAs c [] ((x :: rest) :: chains) n ok c' pdesc own tail pend' chains') :
    x ∈ own ++ pend' := by
  have hsome : own ++ pend' ≠ [] := by
    intro hnil
    obtain ⟨rfl, rfl⟩ := List.append_eq_nil_iff.mp hnil
    have hlinked := h.linked
    rcases h.tailOk with rfl | ⟨y, ys, hpend, -, -⟩
    · cases hlinked
    · cases hpend
  obtain ⟨y, ys, hy⟩ := List.exists_cons_of_ne_nil hsome
  have hsplit := h.split
  rw [← List.append_assoc, hy, List.nil_append, List.flatten_cons, List.cons_append,
    List.cons_append] at hsplit
  rw [hy, (List.cons.inj hsplit).1]
  exact List.mem_cons_self

end Received

/-! ## Frame rules -/

section Frames

variable {M M' : MbufMem} {descr : Shadow} {pend tail : List ℕ}

theorem Pending.congr (h : Pending M descr pend) (hnext : ∀ i ∈ pend, M'.next i = M.next i) :
    Pending M' descr pend := by
  cases pend with
  | nil => exact h
  | cons x rest =>
      obtain ⟨hshadow, hlinked, hlink⟩ := h
      refine ⟨hshadow, hlinked.congr fun i hi => hnext i (by simp [hi]), ?_⟩
      rw [hnext x (by simp)]
      exact hlink

/-- Only pending buffers are behind the buffers of the application. -/
theorem TailOk.mem (h : TailOk M pend tail) {i : ℕ} (hi : i ∈ tail) : i ∈ pend := by
  rcases h with hnil | ⟨x, rest, hpend, hone, -⟩
  · simp [hnil] at hi
  · rw [hone, List.mem_singleton] at hi
    simp [hpend, hi]

theorem TailOk.congr (h : TailOk M pend tail) (hnext : ∀ i ∈ pend, M'.next i = M.next i) :
    TailOk M' pend tail := by
  rcases h with hnil | ⟨x, rest, hpend, htail, hx⟩
  · exact .inl hnil
  · refine .inr ⟨x, rest, hpend, htail, ?_⟩
    rw [hnext x (by simp [hpend]), hx]

theorem queued_congr {queue : List ℕ} {chains : List (List ℕ)}
    (h : List.Forall₂ (fun p ids => Linked M.next (some p) ids) queue chains)
    (hnext : ∀ i ∈ chains.flatten, M'.next i = M.next i) :
    List.Forall₂ (fun p ids => Linked M'.next (some p) ids) queue chains := by
  induction h with
  | nil => exact .nil
  | cons hhead _ ih =>
      refine .cons (hhead.congr fun i hi => hnext i (by simp [hi])) (ih fun i hi => hnext i ?_)
      simp only [List.flatten_cons, List.mem_append]
      exact .inr hi

theorem pendBytes_congr (hcores : ∀ i ∈ pend, (M'.mbuf i).core = (M.mbuf i).core) :
    pendBytes M' descr pend = pendBytes M descr pend := by
  cases pend with
  | nil => rfl
  | cons x rest =>
      have hslice := congrArg (fun m : Mbuf => m.slice (m.dataOff + descr.shadowLenDelievered)
        descr.shadowLenRemainder) (hcores x (by simp))
      have hrest : bytesOf M' rest = bytesOf M rest := by
        apply bytesOf_congr
        intro i hi
        have hdata := congrArg Mbuf.data (hcores i (by simp [hi]))
        exact hdata
      rw [pendBytes, pendBytes, hrest]
      exact congrArg (· ++ bytesOf M rest) hslice

end Frames

/-- A read of the first of some chains leaves the others as they were. -/
theorem Chains.after_read {c : RxClient} {mbuf n : ℕ} {ids own tail pend : List ℕ}
    {chains : List (List ℕ)} {r : ExactRead}
    (hqueued : List.Forall₂ (fun p ids => Linked c.mem.next (some p) ids) c.queue chains)
    (hnodup : (ids ++ chains.flatten).Nodup) (hrange : ∀ i ∈ ids ++ chains.flatten, i < c.mem.size)
    (hread : ReadOf c.mem c.descr mbuf n ids r own tail pend) :
    Chains { c with mem := r.mem, descr := r.descr } pend chains := by
  have hsub : (pend ++ chains.flatten).Sublist (ids ++ chains.flatten) := by
    rw [hread.split]
    exact (List.sublist_append_right own pend).append_right _
  exact
    { pending := hread.pending
      queued := by
        refine queued_congr hqueued fun i hi => ?_
        have hnot : i ∉ ids := fun hmem => (List.nodup_append.mp hnodup).2.2 i hmem i hi rfl
        simp only [MbufMem.next, hread.others i hnot]
      short := hread.short
      nodup := hsub.nodup hnodup
      inRange := by
        intro i hi
        show i < r.mem.size
        rw [hread.size]
        exact hrange i (hsub.subset hi) }

/-! ## The shadow becomes a chain again -/

/-- The chain that `ipaugenblick_get_from_shadow` puts back together. -/
structure FromShadow (c : RxClient) (x : ℕ) (rest : List ℕ) (c' : RxClient) : Prop where
  queue : c'.queue = c.queue
  descr : c'.descr = { c.descr with shadow := none, shadowNext := none }
  linked : Linked c'.mem.next (some x) (x :: rest)
  others : ∀ i, i ≠ x → c'.mem.mbuf i = c.mem.mbuf i
  size : c'.mem.size = c.mem.size
  frees : c'.mem.frees = c.mem.frees
  short : ∀ i, (c'.mem.mbuf i).dataLen < 65536
  lens : lensOf c'.mem (x :: rest) = c.descr.shadowLenRemainder % 65536 :: lensOf c.mem rest
  bytes : RemainderOk c.descr →
    bytesOf c'.mem (x :: rest) = pendBytes c.mem c.descr (x :: rest)

theorem ipaugenblickGetFromShadow_spec {c : RxClient} {x : ℕ} {rest : List ℕ}
    {chains : List (List ℕ)} (h : Chains c (x :: rest) chains) :
    c.ipaugenblickGetFromShadow.1 = some x ∧
      FromShadow c x rest c.ipaugenblickGetFromShadow.2 := by
  obtain ⟨hshadow, hrest, -⟩ := h.pending
  have hx : x ∉ rest := by
    have hnodup := h.nodup
    simp only [List.cons_append, List.nodup_cons, List.mem_append, not_or] at hnodup
    exact hnodup.1.1
  unfold RxClient.ipaugenblickGetFromShadow
  rw [hshadow]
  refine ⟨rfl, ?_⟩
  dsimp only
  obtain ⟨N, hN⟩ : ∃ N, N = RxClient.restoreShadow c.mem c.descr x := ⟨_, rfl⟩
  rw [← hN]
  obtain ⟨pktLen, hself⟩ : ∃ pktLen, N.mbuf x = { c.mem.mbuf x with
      dataLen := c.descr.shadowLenRemainder % 65536
      dataOff := (c.mem.mbuf x).dataOff + c.descr.shadowLenDelievered
      pktLen := pktLen
      next := c.descr.shadowNext } := by
    rw [hN]
    simp only [RxClient.restoreShadow, MbufMem.setNext, MbufMem.setDataLen, MbufMem.modify_self]
    exact ⟨_, rfl⟩
  have hother : ∀ i, i ≠ x → N.mbuf i = c.mem.mbuf i := by
    intro i hi
    rw [hN]
    simp only [RxClient.restoreShadow, MbufMem.setNext, MbufMem.setDataLen,
      MbufMem.modify_of_ne _ _ hi]
  have hrestNe : ∀ i ∈ rest, i ≠ x := fun i hi heq => hx (heq ▸ hi)
  exact
    { queue := rfl
      descr := rfl
      linked := by
        refine ⟨rfl, ?_⟩
        show Linked N.next (N.mbuf x).next rest
        rw [hself]
        refine hrest.congr fun i hi => ?_
        simp only [MbufMem.next, hother i (hrestNe i hi)]
      others := hother
      size := by rw [hN]; rfl
      frees := by rw [hN]; rfl
      short := by
        intro i
        by_cases heq : i = x
        · subst heq
          show (N.mbuf i).dataLen < 65536
          rw [hself]
          exact Nat.mod_lt _ (by decide)
        · show (N.mbuf i).dataLen < 65536
          rw [hother i heq]
          exact h.short i
      lens := by
        show (N.mbuf x).dataLen :: lensOf N rest = _
        rw [hself]
        congr 1
        apply List.map_congr_left
        intro i hi
        rw [hother i (hrestNe i hi)]
      bytes := by
        intro hrem
        have hmod := Nat.mod_eq_of_lt (hrem (by rw [hshadow]; simp))
        have hrestBytes : bytesOf N rest = bytesOf c.mem rest := by
          apply bytesOf_congr
          intro i hi
          rw [hother i (hrestNe i hi)]
        show (N.mbuf x).data ++ bytesOf N rest = _
        rw [hrestBytes, hself, hmod]
        rfl }

/-! ## Receive, path by path -/

section Paths

variable {c d : RxClient} {n : ℕ} {chains : List (List ℕ)}

/-- The fuel of the chain walks covers every chain. -/
theorem Chains.length_le {pend : List ℕ} (h : Chains c pend chains) {ids : List ℕ}
    (hsub : ids.Sublist (pend ++ chains.flatten)) : ids.length ≤ c.mem.size :=
  MbufMem.length_le_size (hsub.nodup h.nodup) fun i hi => h.inRange i (hsub.subset hi)

/-- A bounded read of a fresh chain `ids`, with `chains` waiting behind it. -/
theorem receivedAs_read {mbuf : ℕ} {ids : List ℕ}
    (hlinked : Linked c.mem.next (some mbuf) ids)
    (hqueued : List.Forall₂ (fun p ids => Linked c.mem.next (some p) ids) d.queue chains)
    (hmem : d.mem = c.mem) (hdescr : d.descr = c.descr)
    (hnone : c.descr.shadow = none ∧ c.descr.shadowNext = none)
    (hshort : ∀ i, (c.mem.mbuf i).dataLen < 65536)
    (hnodup : (ids ++ chains.flatten).Nodup)
    (hrange : ∀ i ∈ ids ++ chains.flatten, i < c.mem.size) (hn : 0 < n) :
    ∃ own tail pend, ReceivedAs c [] (ids :: chains) n (boundaryOk c.descr (lensOf c.mem ids) n)
      { d with
        mem := (ipaugenblickTryReadExactAmount d.mem d.descr mbuf n).mem
        descr := (ipaugenblickTryReadExactAmount d.mem d.descr mbuf n).descr }
      mbuf own tail pend chains := by
  have hsize : ids.length ≤ c.mem.size :=
    MbufMem.length_le_size ((List.sublist_append_left _ _).nodup hnodup)
      fun i hi => hrange i (by simp [hi])
  obtain ⟨own, tail, pend, hread⟩ :=
    ipaugenblickTryReadExactAmount_spec hlinked hsize hshort hn hnone
  rw [hmem, hdescr]
  refine ⟨own, tail, pend, ?_⟩
  have hafter := Chains.after_read (by rw [hmem]; exact hqueued) hnodup
    (by rw [hmem]; exact hrange) (by rw [hmem, hdescr]; exact hread)
  have hflatten : bytesOf (ipaugenblickTryReadExactAmount c.mem c.descr mbuf n).mem
      chains.flatten = bytesOf c.mem chains.flatten := by
    apply bytesOf_congr
    intro i hi
    rw [hread.others i fun hmem => (List.nodup_append.mp hnodup).2.2 i hmem i hi rfl]
  exact
    { linked := hread.linked
      tailOk := hread.tailOk
      after := hafter
      split := by rw [List.nil_append, List.flatten_cons, hread.split, List.append_assoc]
      size := hread.size
      frees := hread.frees
      kept := by
        intro i hi
        apply hread.others
        rw [hread.split]
        exact hi
      atMost := fun _ => hread.atMost
      remainder := by
        intro hok hshadow
        apply hread.remainder hok
        rintro rfl
        exact hshadow hread.pending.1
      bytes := by
        intro hok
        have hbytes := hread.bytes hok
        show bytesOf _ (own ++ tail) ++ (pendBytes _ _ pend ++ bytesOf _ chains.flatten) =
          [] ++ bytesOf c.mem (ids :: chains).flatten
        rw [hflatten, ← List.append_assoc, hbytes, List.nil_append, List.flatten_cons,
          bytesOf_append] }

/-- The chain `ids` handed out as it came, with `chains` waiting behind it. -/
theorem receivedAs_whole {mbuf : ℕ} {ids : List ℕ}
    (hlinked : Linked c.mem.next (some mbuf) ids)
    (hqueued : List.Forall₂ (fun p ids => Linked c.mem.next (some p) ids) d.queue chains)
    (hmem : d.mem = c.mem) (hdescr : d.descr = c.descr)
    (hnone : c.descr.shadow = none ∧ c.descr.shadowNext = none)
    (hshort : ∀ i, (c.mem.mbuf i).dataLen < 65536)
    (hnodup : (ids ++ chains.flatten).Nodup)
    (hrange : ∀ i ∈ ids ++ chains.flatten, i < c.mem.size)
    (hn : n = 0 ∨ (lensOf c.mem ids).sum < n) :
    ReceivedAs c [] (ids :: chains) n True d mbuf ids [] [] chains where
  linked := by
    rw [hmem, List.append_nil]
    exact hlinked
  tailOk := .inl rfl
  after :=
    { pending := by
        rw [hdescr]
        exact hnone
      queued := by
        rw [hmem]
        exact hqueued
      short := by
        rw [hmem]
        exact hshort
      nodup := (List.sublist_append_right ids _).nodup hnodup
      inRange := by
        intro i hi
        rw [hmem]
        exact hrange i (by rw [List.mem_append]; exact .inr hi) }
  split := rfl
  size := by rw [hmem]
  frees := by rw [hmem]
  kept := fun _ _ => by rw [hmem]
  atMost := by
    intro hpos
    rw [hmem, List.append_nil]
    omega
  remainder := by
    intro _ hshadow
    rw [hdescr] at hshadow
    exact absurd hnone.1 hshadow
  bytes := by
    intro _
    rw [hmem, List.append_nil]
    show bytesOf c.mem ids ++ ([] ++ bytesOf c.mem chains.flatten) =
      [] ++ bytesOf c.mem (ids ++ chains.flatten)
    rw [bytesOf_append, List.nil_append, List.nil_append]

/-- The result does not depend on fields that carry no bytes. -/
theorem ReceivedAs.congr {pend own tail pend' : List ℕ} {chains' : List (List ℕ)} {ok : Prop}
    {c' c'' : RxClient} {pdesc : ℕ}
    (h : ReceivedAs c pend chains n ok c' pdesc own tail pend' chains')
    (hqueue : c''.queue = c'.queue) (hdescr : c''.descr = c'.descr)
    (hnext : c''.mem.next = c'.mem.next) (hcores : c''.mem.cores = c'.mem.cores)
    (hsize : c''.mem.size = c'.mem.size) (hfrees : c''.mem.frees = c'.mem.frees)
    (hkept : ∀ i, i ∉ own ++ pend' → c''.mem.mbuf i = c'.mem.mbuf i) :
    ReceivedAs c pend chains n ok c'' pdesc own tail pend' chains' where
  linked := by
    rw [hnext]
    exact h.linked
  tailOk := h.tailOk.congr fun i _ => by rw [hnext]
  after :=
    { pending := by
        rw [hdescr]
        exact h.after.pending.congr fun i _ => by rw [hnext]
      queued := by
        rw [hqueue, hnext]
        exact h.after.queued
      short := by
        intro i
        rw [MbufMem.dataLen_congr hcores]
        exact h.after.short i
      nodup := h.after.nodup
      inRange := by
        rw [hsize]
        exact h.after.inRange }
  split := h.split
  size := by rw [hsize, h.size]
  frees := by rw [hfrees, h.frees]
  kept := by
    intro i hi
    rw [hkept i hi, h.kept i hi]
  atMost := by
    have hlens : lensOf c''.mem (own ++ tail) = lensOf c'.mem (own ++ tail) :=
      List.map_congr_left fun i _ => MbufMem.dataLen_congr hcores i
    rw [hlens]
    exact h.atMost
  remainder := by
    rw [hdescr]
    exact h.remainder
  bytes := by
    have hbytes : ∀ ids, bytesOf c''.mem ids = bytesOf c'.mem ids := fun ids =>
      bytesOf_congr fun i _ => MbufMem.data_congr hcores i
    rw [hbytes, hbytes, hdescr, pendBytes_congr fun i _ => congrFun hcores i]
    exact h.bytes

theorem ReceivedAs.mono {pend own tail pend' : List ℕ} {chains' : List (List ℕ)} {ok ok' : Prop}
    {c' : RxClient} {pdesc : ℕ}
    (h : ReceivedAs c pend chains n ok c' pdesc own tail pend' chains') (hok : ok' → ok) :
    ReceivedAs c pend chains n ok' c' pdesc own tail pend' chains' :=
  { h with
    remainder := fun h' => h.remainder (hok h')
    bytes := fun h' => h.bytes (hok h') }

/-- Two chains in one call: the first is handed out whole, the second as `h`
says, and the last segment of the first is linked to the second. -/
theorem ReceivedAs.join {ids own tail pend' : List ℕ} {chains' : List (List ℕ)} {ok : Prop}
    {c' : RxClient} {first second m : ℕ}
    (h : ReceivedAs c [] chains m ok c' second own tail pend' chains')
    (hlinked : Linked c.mem.next (some first) ids)
    (hnodup : (ids ++ chains.flatten).Nodup) (hrange : ∀ i ∈ ids, i < c.mem.size)
    (hn : 0 < n → 0 < m ∧ (lensOf c.mem ids).sum + m ≤ n) :
    ReceivedAs c [] (ids :: chains) n ok
      { c' with
        mem := c'.mem.setNext (rtePktmbufLastseg c'.mem c'.mem.size first) (some second) }
      first (ids ++ own) tail pend' chains' := by
  obtain ⟨hidsNodup, -, hdisjoint⟩ := List.nodup_append.mp hnodup
  have hsplit : chains.flatten = own ++ (pend' ++ chains'.flatten) := h.split
  have hkept : ∀ i ∈ ids, c'.mem.mbuf i = c.mem.mbuf i := by
    intro i hi
    apply h.others
    intro hmem
    exact hdisjoint i hi i (by simpa using hmem) rfl
  obtain ⟨pre, last, rfl⟩ : ∃ pre last, ids = pre ++ [last] := by
    rcases List.eq_nil_or_concat ids with rfl | ⟨pre, last, rfl⟩
    · simp at hlinked
    · exact ⟨pre, last, by simp⟩
  have hlinked' : Linked c'.mem.next (some first) (pre ++ [last]) := by
    refine hlinked.congr fun i hi => ?_
    simp only [MbufMem.next, hkept i hi]
  have hfuel : (pre ++ [last]).length ≤ c'.mem.size := by
    rw [h.size]
    exact MbufMem.length_le_size hidsNodup hrange
  have hlast : rtePktmbufLastseg c'.mem c'.mem.size first = last := by
    apply rtePktmbufLastseg_eq _ hlinked'
    simp only [List.length_append, List.length_singleton] at hfuel
    omega
  rw [hlast]
  have hfresh : ∀ i ∈ chains.flatten, i ≠ last := by
    intro i hi heq
    exact hdisjoint last (by simp) i hi heq.symm
  have htail : ∀ i ∈ own ++ tail, i ∈ chains.flatten := by
    intro i hi
    rw [hsplit]
    rcases List.mem_append.mp hi with hown | htl
    · simp [hown]
    · simp [h.tailOk.mem htl]
  have hpend : ∀ i ∈ pend' ++ chains'.flatten, i ∈ chains.flatten := by
    intro i hi
    rw [hsplit]
    exact List.mem_append_right _ hi
  have hnext : ∀ i, i ≠ last → (c'.mem.setNext last (some second)).next i = c'.mem.next i := by
    intro i hi
    rw [MbufMem.next_setNext, Function.update_of_ne hi]
  have hcores := c'.mem.cores_setNext last (some second)
  have hbytes : ∀ ids, bytesOf (c'.mem.setNext last (some second)) ids = bytesOf c'.mem ids :=
    fun ids => bytesOf_congr fun i _ => MbufMem.data_congr hcores i
  have hfirstBytes : bytesOf c'.mem (pre ++ [last]) = bytesOf c.mem (pre ++ [last]) :=
    bytesOf_congr fun i hi => by rw [hkept i hi]
  exact
    { linked := by
        have hjoin := hlinked'.append h.linked fun hmem => hfresh last (htail last hmem) rfl
        rw [MbufMem.next_setNext]
        simpa using hjoin
      tailOk := h.tailOk.congr fun i hi => hnext i (hfresh i (hpend i (by simp [hi])))
      after :=
        { pending := h.after.pending.congr fun i hi => hnext i (hfresh i (hpend i (by simp [hi])))
          queued := by
            refine queued_congr h.after.queued fun i hi => hnext i (hfresh i (hpend i ?_))
            exact List.mem_append_right _ hi
          short := by
            intro i
            rw [MbufMem.dataLen_congr hcores]
            exact h.after.short i
          nodup := h.after.nodup
          inRange := h.after.inRange }
      split := by
        rw [List.nil_append, List.flatten_cons, hsplit, List.append_assoc (pre ++ [last])]
      size := h.size
      frees := h.frees
      kept := by
        intro i hi
        simp only [List.mem_append, not_or] at hi
        have hne : i ≠ last := fun heq => hi.1.1.2 (by simp [heq])
        rw [setNext_mbuf_of_ne _ _ hne]
        exact h.kept i (by simp [hi.1.2, hi.2])
      atMost := by
        intro hpos
        obtain ⟨hm, hle⟩ := hn hpos
        have hsecond := h.atMost hm
        have hlens : lensOf (c'.mem.setNext last (some second)) (pre ++ [last] ++ own ++ tail) =
            lensOf c.mem (pre ++ [last]) ++ lensOf c'.mem (own ++ tail) := by
          rw [List.append_assoc (pre ++ [last])]
          unfold lensOf
          rw [List.map_append]
          congr 1
          · apply List.map_congr_left
            intro i hi
            rw [MbufMem.dataLen_congr hcores, hkept i hi]
          · exact List.map_congr_left fun i _ => MbufMem.dataLen_congr hcores i
        rw [hlens, List.sum_append]
        omega
      remainder := h.remainder
      bytes := by
        intro hok
        have hrest := h.bytes hok
        rw [hbytes, hbytes, pendBytes_congr fun i _ => congrFun hcores i]
        show bytesOf c'.mem (pre ++ [last] ++ own ++ tail) ++ _ = [] ++ bytesOf c.mem _
        rw [List.append_assoc (pre ++ [last]), bytesOf_append, hfirstBytes, List.append_assoc,
          hrest, List.flatten_cons, bytesOf_append _ (pre ++ [last])]
        rfl }

/-- What a dequeue finds, by the chains that are waiting. -/
theorem dequeue_cases
    (hqueued : List.Forall₂ (fun p ids => Linked c.mem.next (some p) ids) c.queue chains) :
    (∃ d, chains = [] ∧ c.ipaugenblickDequeueRxBuf = (none, d) ∧ d.queue = [] ∧
        d.mem = c.mem ∧ d.descr = c.descr) ∨
      ∃ p ids rest d, chains = ids :: rest ∧ c.ipaugenblickDequeueRxBuf = (some p, d) ∧
        Linked c.mem.next (some p) ids ∧
        List.Forall₂ (fun p ids => Linked c.mem.next (some p) ids) d.queue rest ∧
        d.mem = c.mem ∧ d.descr = c.descr := by
  obtain ⟨hhead, htail, hmem, hdescr⟩ := c.ipaugenblickDequeueRxBuf_spec
  obtain ⟨first, d, hdequeue⟩ : ∃ first d, c.ipaugenblickDequeueRxBuf = (first, d) :=
    ⟨_, _, rfl⟩
  rw [hdequeue] at hhead htail hmem hdescr
  simp only at hhead htail hmem hdescr
  cases chains with
  | nil =>
      have hempty : c.queue = [] := List.forall₂_nil_right_iff.mp hqueued
      rw [hempty] at hhead htail
      obtain rfl : first = none := hhead
      exact .inl ⟨d, rfl, hdequeue, htail, hmem, hdescr⟩
  | cons ids rest =>
      obtain ⟨p, ps, hlinked, hrest, hqueue⟩ := List.forall₂_cons_right_iff.mp hqueued
      rw [hqueue] at hhead htail
      obtain rfl : first = some p := hhead
      rw [List.tail_cons] at htail
      refine .inr ⟨p, ids, rest, d, rfl, hdequeue, hlinked, ?_, hmem, hdescr⟩
      rw [htail]
      exact hrest

/-- Without a half-delivered chain, the oldest chain of the queue is read. -/
theorem receive_from_queue (h : Chains c [] chains) (n : ℕ) :
    (chains = [] ∧ (c.ipaugenblickReceive n).1 = none ∧
        Chains (c.ipaugenblickReceive n).2 [] [] ∧
        (c.ipaugenblickReceive n).2.mem = c.mem ∧ (c.ipaugenblickReceive n).2.descr = c.descr) ∨
      ∃ got own tail pend chains', (c.ipaugenblickReceive n).1 = some got ∧
        ReceivedAs c [] chains n (receiveOk c.mem c.descr [] chains n)
          (c.ipaugenblickReceive n).2 got.pdesc own tail pend chains' := by
  have hnone := h.pending
  have hshadow : c.ipaugenblickGetFromShadow = (none, c) := by
    unfold RxClient.ipaugenblickGetFromShadow
    rw [hnone.1]
  rcases dequeue_cases h.queued with
    ⟨d, rfl, hdequeue, hqueue, hmem, hdescr⟩ |
      ⟨p, ids, rest, d, rfl, hdequeue, hlinked, hqueued, hmem, hdescr⟩
  · have hreceive : c.ipaugenblickReceive n = (none, d) := by
      simp only [RxClient.ipaugenblickReceive, hshadow, hdequeue]
    rw [hreceive]
    refine .inl ⟨rfl, rfl, ?_, hmem, hdescr⟩
    exact
      { pending := by
          rw [hmem, hdescr]
          exact h.pending
        queued := by
          rw [hqueue]
          exact .nil
        short := by
          rw [hmem]
          exact h.short
        nodup := h.nodup
        inRange := by
          rw [hmem]
          exact h.inRange }
  · have hnodup : (ids ++ rest.flatten).Nodup := h.nodup
    have hrange : ∀ i ∈ ids ++ rest.flatten, i < c.mem.size := h.inRange
    by_cases hn : 0 < n
    · obtain ⟨own, tail, pend, hread⟩ := receivedAs_read hlinked hqueued hmem hdescr
        hnone h.short hnodup hrange hn
      have hreceive : (c.ipaugenblickReceive n).1.map Received.pdesc = some p ∧
          (c.ipaugenblickReceive n).2 =
            { d with
              mem := (ipaugenblickTryReadExactAmount d.mem d.descr p n).mem
              descr := (ipaugenblickTryReadExactAmount d.mem d.descr p n).descr } := by
        simp only [RxClient.ipaugenblickReceive, hshadow, hdequeue, if_pos hn]
        exact ⟨rfl, trivial⟩
      obtain ⟨got, hgot, hpdesc⟩ := Option.map_eq_some_iff.mp hreceive.1
      refine .inr ⟨got, own, tail, pend, rest, hgot, ?_⟩
      rw [hreceive.2, hpdesc]
      exact hread.mono fun hok => hok hn ids rfl
    · have hreceive : (c.ipaugenblickReceive n).1.map Received.pdesc = some p ∧
          (c.ipaugenblickReceive n).2 = d := by
        simp only [RxClient.ipaugenblickReceive, hshadow, hdequeue, if_neg hn]
        exact ⟨rfl, trivial⟩
      obtain ⟨got, hgot, hpdesc⟩ := Option.map_eq_some_iff.mp hreceive.1
      refine .inr ⟨got, ids, [], [], rest, hgot, ?_⟩
      rw [hreceive.2, hpdesc]
      have hwhole := receivedAs_whole hlinked hqueued hmem hdescr hnone h.short hnodup hrange
        (.inl (show n = 0 by omega))
      exact hwhole.mono fun _ => trivial

/-- What is received from the chain that came back from the shadow is received
from what was pending. -/
theorem ReceivedAs.from_shadow {x : ℕ} {rest own tail pend' : List ℕ} {chains' : List (List ℕ)}
    {ok : Prop} {c' : RxClient} {pdesc : ℕ} (hback : FromShadow c x rest d)
    (hx : x ∉ chains.flatten)
    (h : ReceivedAs d [] ((x :: rest) :: chains) n ok c' pdesc own tail pend' chains') :
    ReceivedAs c (x :: rest) chains n (ok ∧ RemainderOk c.descr) c' pdesc own tail pend'
      chains' where
  linked := h.linked
  tailOk := h.tailOk
  after := h.after
  split := h.split
  size := by rw [h.size, hback.size]
  frees := by rw [h.frees, hback.frees]
  kept := by
    intro i hi
    have hne : i ≠ x := fun heq => hi (heq ▸ h.head_mem)
    rw [h.kept i hi, hback.others i hne]
  atMost := h.atMost
  remainder := fun hok => h.remainder hok.1
  bytes := by
    rintro ⟨hok, hrem⟩
    have hchains : bytesOf d.mem chains.flatten = bytesOf c.mem chains.flatten := by
      apply bytesOf_congr
      intro i hi
      rw [hback.others i fun heq => hx (heq ▸ hi)]
    rw [h.bytes hok, List.flatten_cons, bytesOf_append, hback.bytes hrem, hchains]
    rfl

/-- Whether a boundary is right depends on the recorded lengths only. -/
theorem boundaryOk_congr {descr descr' : Shadow}
    (hrem : descr'.shadowLenRemainder = descr.shadowLenRemainder)
    (hdel : descr'.shadowLenDelievered = descr.shadowLenDelievered) (lens : List ℕ) (n : ℕ) :
    boundaryOk descr' lens n ↔ boundaryOk descr lens n := by
  induction lens generalizing n with
  | nil => rfl
  | cons l lens ih =>
      have hedge : edgeOk descr' lens ↔ edgeOk descr lens := by
        cases lens with
        | nil => rfl
        | cons s lens =>
            cases lens with
            | nil => simp only [edgeOk, hrem, hdel]
            | cons t lens => rfl
      simp only [boundaryOk, ih, hedge]

/-- Where the last link of a chain is null already, clearing it changes nothing. -/
theorem ReceivedAs.clear_last {ids tail pend' : List ℕ} {chains' : List (List ℕ)} {ok : Prop}
    {c' : RxClient} {first : ℕ}
    (h : ReceivedAs c [] (ids :: chains) n ok c' first ids tail pend' chains')
    (hlinked : Linked c'.mem.next (some first) ids) (hsize : ids.length ≤ c'.mem.size) :
    ReceivedAs c [] (ids :: chains) n ok
      { c' with mem := c'.mem.setNext (rtePktmbufLastseg c'.mem c'.mem.size first) none }
      first ids tail pend' chains' := by
  obtain ⟨pre, last, rfl⟩ : ∃ pre last, ids = pre ++ [last] := by
    rcases List.eq_nil_or_concat ids with rfl | ⟨pre, last, rfl⟩
    · simp at hlinked
    · exact ⟨pre, last, by simp⟩
  have hlast : rtePktmbufLastseg c'.mem c'.mem.size first = last := by
    apply rtePktmbufLastseg_eq _ hlinked
    simp only [List.length_append, List.length_singleton] at hsize
    omega
  rw [hlast]
  refine h.congr rfl rfl ?_ (c'.mem.cores_setNext last none) rfl rfl ?_
  · show (c'.mem.setNext last none).next = c'.mem.next
    rw [MbufMem.next_setNext, ← hlinked.next_last, Function.update_eq_self]
  · intro i hi
    have hne : i ≠ last := fun heq => hi (by simp [heq])
    exact setNext_mbuf_of_ne _ _ hne

section FromShadow

variable {x : ℕ} {rest : List ℕ}

/-- The shadow is empty afterwards. -/
theorem FromShadow.noShadow (hback : FromShadow c x rest d) :
    d.descr.shadow = none ∧ d.descr.shadowNext = none := by
  rw [hback.descr]
  exact ⟨rfl, rfl⟩

theorem FromShadow.inRange (hback : FromShadow c x rest d) (h : Chains c (x :: rest) chains) :
    ∀ i ∈ (x :: rest) ++ chains.flatten, i < d.mem.size := by
  rw [hback.size]
  exact h.inRange

theorem FromShadow.length_le (hback : FromShadow c x rest d) (h : Chains c (x :: rest) chains) :
    (x :: rest).length ≤ d.mem.size := by
  rw [hback.size]
  exact h.length_le (List.sublist_append_left _ _)

/-- A request of no particular size: what was pending and one more chain. -/
theorem receive_from_shadow_any (hback : FromShadow c x rest d)
    (hget : c.ipaugenblickGetFromShadow = (some x, d)) (h : Chains c (x :: rest) chains)
    (hqueued : List.Forall₂ (fun p ids => Linked d.mem.next (some p) ids) d.queue chains) :
    ∃ got own tail pend chains', (c.ipaugenblickReceive 0).1 = some got ∧
      ReceivedAs d [] ((x :: rest) :: chains) 0 True (c.ipaugenblickReceive 0).2 got.pdesc own
        tail pend chains' := by
  have hnone := hback.noShadow
  have hnodup : ((x :: rest) ++ chains.flatten).Nodup := h.nodup
  have hrange := hback.inRange h
  have hsize := hback.length_le h
  rcases dequeue_cases hqueued with
    ⟨e, rfl, hdequeue, hqueue, hmem, hdescr⟩ |
      ⟨p, ids, chains', e, rfl, hdequeue, hlinked, hrest, hmem, hdescr⟩
  · have hreceive : (c.ipaugenblickReceive 0).1.map Received.pdesc = some x ∧
        (c.ipaugenblickReceive 0).2 =
          { e with mem := e.mem.setNext (rtePktmbufLastseg e.mem e.mem.size x) none } := by
      simp only [RxClient.ipaugenblickReceive, hget, hdequeue, Nat.lt_irrefl, if_false]
      exact ⟨rfl, trivial⟩
    obtain ⟨got, hgot, hpdesc⟩ := Option.map_eq_some_iff.mp hreceive.1
    refine ⟨got, x :: rest, [], [], [], hgot, ?_⟩
    rw [hreceive.2, hpdesc]
    have hwhole := receivedAs_whole hback.linked (by rw [hqueue]; exact .nil) hmem hdescr hnone
      hback.short hnodup hrange (.inl rfl)
    exact hwhole.clear_last (by rw [hmem]; exact hback.linked) (by rw [hmem]; exact hsize)
  · have hwhole := receivedAs_whole hlinked hrest hmem hdescr hnone hback.short
      ((List.sublist_append_right _ _).nodup hnodup)
      (fun i hi => hrange i (List.mem_append_right _ hi)) (.inl rfl)
    have hjoin := hwhole.join hback.linked hnodup
      (fun i hi => hrange i (List.mem_append_left _ hi)) (fun h => absurd h (Nat.lt_irrefl 0))
    obtain ⟨k, hreceive⟩ : ∃ k, (c.ipaugenblickReceive 0).1.map Received.pdesc = some x ∧
        (c.ipaugenblickReceive 0).2 =
          { e with
            mem := (e.mem.setNext (rtePktmbufLastseg e.mem e.mem.size x) (some p)).modify x
              fun m => { m with pktLen := m.pktLen + k } } := by
      simp only [RxClient.ipaugenblickReceive, hget, hdequeue, Nat.lt_irrefl, if_false]
      exact ⟨_, rfl, rfl⟩
    obtain ⟨got, hgot, hpdesc⟩ := Option.map_eq_some_iff.mp hreceive.1
    refine ⟨got, x :: rest ++ ids, [], [], chains', hgot, ?_⟩
    rw [hreceive.2, hpdesc]
    refine hjoin.congr rfl rfl ?_ ?_ rfl rfl ?_
    · dsimp only
      apply MbufMem.next_modify
      rfl
    · dsimp only
      apply MbufMem.cores_modify
      rfl
    · intro i hi
      have hne : i ≠ x := fun heq => hi (by simp [heq])
      dsimp only
      exact MbufMem.modify_of_ne _ _ hne

/-- A request for `n` bytes: what was pending, and the oldest chain of the queue
when that is less. -/
theorem receive_from_shadow_exact (hback : FromShadow c x rest d)
    (hget : c.ipaugenblickGetFromShadow = (some x, d)) (h : Chains c (x :: rest) chains)
    (hqueued : List.Forall₂ (fun p ids => Linked d.mem.next (some p) ids) d.queue chains)
    (hn : 0 < n) :
    ∃ got own tail pend chains', (c.ipaugenblickReceive n).1 = some got ∧
      ReceivedAs d [] ((x :: rest) :: chains) n
        (boundaryOk d.descr (lensOf d.mem (x :: rest)) n ∧
          ((lensOf d.mem (x :: rest)).sum < n → ∀ ids, chains.head? = some ids →
            boundaryOk d.descr (lensOf d.mem ids) (n - (lensOf d.mem (x :: rest)).sum)))
        (c.ipaugenblickReceive n).2 got.pdesc own tail pend chains' := by
  have hnone := hback.noShadow
  have hnodup : ((x :: rest) ++ chains.flatten).Nodup := h.nodup
  have hrange := hback.inRange h
  have hsize := hback.length_le h
  obtain ⟨first, hfirst⟩ : ∃ first, ipaugenblickTryReadExactAmount d.mem d.descr x n = first :=
    ⟨_, rfl⟩
  by_cases hless : 0 < first.totalLen ∧ first.totalLen < n
  · have hused : (lensOf d.mem (x :: rest)).sum = first.totalLen ∧ first.mem = d.mem ∧
        first.descr = d.descr := by
      rcases ipaugenblickTryReadExactAmount_cases d.mem d.descr hback.linked hsize hn with
        ⟨-, hmem, hdescr, htotal, -⟩ | ⟨pre, y, post, -, htotal, -⟩
      · rw [hfirst] at hmem hdescr htotal
        exact ⟨htotal.symm, hmem, hdescr⟩
      · rw [hfirst] at htotal
        omega
    obtain ⟨hsum, hfmem, hfdescr⟩ := hused
    have hsame : { d with mem := first.mem, descr := first.descr } = d := by
      rw [hfmem, hfdescr]
    rcases dequeue_cases hqueued with
      ⟨e, rfl, hdequeue, hqueue, hmem, hdescr⟩ |
        ⟨p, ids, chains', e, rfl, hdequeue, hlinked, hrest, hmem, hdescr⟩
    · have hreceive : (c.ipaugenblickReceive n).1.map Received.pdesc = some x ∧
          (c.ipaugenblickReceive n).2 = e := by
        simp only [RxClient.ipaugenblickReceive, hget, if_pos hn, hfirst, if_pos hless, hsame,
          hdequeue]
        exact ⟨rfl, trivial⟩
      obtain ⟨got, hgot, hpdesc⟩ := Option.map_eq_some_iff.mp hreceive.1
      refine ⟨got, x :: rest, [], [], [], hgot, ?_⟩
      rw [hreceive.2, hpdesc]
      have hwhole := receivedAs_whole hback.linked (by rw [hqueue]; exact .nil) hmem hdescr hnone
        hback.short hnodup hrange (.inr (show (lensOf d.mem (x :: rest)).sum < n by omega))
      exact hwhole.mono fun _ => trivial
    · obtain ⟨own, tail, pend, hread⟩ := receivedAs_read hlinked hrest hmem hdescr hnone
        hback.short ((List.sublist_append_right _ _).nodup hnodup)
        (fun i hi => hrange i (List.mem_append_right _ hi))
        (show 0 < n - first.totalLen by omega)
      have hjoin := hread.join hback.linked hnodup
        (fun i hi => hrange i (List.mem_append_left _ hi)) (n := n) (fun _ => by omega)
      have hreceive : (c.ipaugenblickReceive n).1.map Received.pdesc = some x ∧
          (c.ipaugenblickReceive n).2 =
            { e with
              mem := (ipaugenblickTryReadExactAmount e.mem e.descr p
                (n - first.totalLen)).mem.setNext
                  (rtePktmbufLastseg (ipaugenblickTryReadExactAmount e.mem e.descr p
                      (n - first.totalLen)).mem
                    (ipaugenblickTryReadExactAmount e.mem e.descr p
                      (n - first.totalLen)).mem.size x) (some p)
              descr := (ipaugenblickTryReadExactAmount e.mem e.descr p
                (n - first.totalLen)).descr } := by
        simp only [RxClient.ipaugenblickReceive, hget, if_pos hn, hfirst, if_pos hless, hsame,
          hdequeue]
        exact ⟨rfl, trivial⟩
      obtain ⟨got, hgot, hpdesc⟩ := Option.map_eq_some_iff.mp hreceive.1
      refine ⟨got, x :: rest ++ own, tail, pend, chains', hgot, ?_⟩
      rw [hreceive.2, hpdesc]
      refine hjoin.mono fun hok => ?_
      have hsecond := hok.2 (by omega) ids rfl
      rwa [hsum] at hsecond
  · obtain ⟨own, tail, pend, hread⟩ := receivedAs_read hback.linked hqueued rfl rfl hnone
      hback.short hnodup hrange hn
    have hreceive : (c.ipaugenblickReceive n).1.map Received.pdesc = some x ∧
        (c.ipaugenblickReceive n).2 =
          { d with
            mem := (ipaugenblickTryReadExactAmount d.mem d.descr x n).mem
            descr := (ipaugenblickTryReadExactAmount d.mem d.descr x n).descr } := by
      simp only [RxClient.ipaugenblickReceive, hget, if_pos hn, hfirst, if_neg hless]
      exact ⟨rfl, trivial⟩
    obtain ⟨got, hgot, hpdesc⟩ := Option.map_eq_some_iff.mp hreceive.1
    refine ⟨got, own, tail, pend, chains, hgot, ?_⟩
    rw [hreceive.2, hpdesc]
    exact hread.mono fun hok => hok.1

end FromShadow

/-- **A receive call.**  It finds nothing only when nothing is waiting, and then
changes nothing; otherwise what it hands out is the front of what was waiting. -/
theorem ipaugenblickReceive_spec {pend : List ℕ} (h : Chains c pend chains) (n : ℕ) :
    ((c.ipaugenblickReceive n).1 = none ∧ pend = [] ∧ chains = [] ∧
        Chains (c.ipaugenblickReceive n).2 [] [] ∧
        (c.ipaugenblickReceive n).2.mem = c.mem ∧ (c.ipaugenblickReceive n).2.descr = c.descr) ∨
      ∃ got own tail pend' chains', (c.ipaugenblickReceive n).1 = some got ∧
        ReceivedAs c pend chains n
          (receiveOk c.mem c.descr pend chains n ∧ RemainderOk c.descr)
          (c.ipaugenblickReceive n).2 got.pdesc own tail pend' chains' := by
  cases pend with
  | nil =>
      rcases receive_from_queue h n with
        ⟨hchains, hrest⟩ | ⟨got, own, tail, pend, chains', hgot, hreceived⟩
      · exact .inl ⟨hrest.1, rfl, hchains, hrest.2⟩
      · exact .inr ⟨got, own, tail, pend, chains', hgot, hreceived.mono And.left⟩
  | cons x rest =>
      obtain ⟨hsome, hback⟩ := ipaugenblickGetFromShadow_spec h
      have hget : c.ipaugenblickGetFromShadow = (some x, c.ipaugenblickGetFromShadow.2) :=
        Prod.ext hsome rfl
      obtain ⟨d, hd⟩ : ∃ d, c.ipaugenblickGetFromShadow.2 = d := ⟨_, rfl⟩
      rw [hd] at hback hget
      have hx : x ∉ chains.flatten := by
        have hnodup := h.nodup
        simp only [List.cons_append, List.nodup_cons, List.mem_append, not_or] at hnodup
        exact hnodup.1.2
      have hqueued : List.Forall₂ (fun p ids => Linked d.mem.next (some p) ids) d.queue
          chains := by
        rw [hback.queue]
        refine queued_congr h.queued fun i hi => ?_
        simp only [MbufMem.next, hback.others i fun heq => hx (heq ▸ hi)]
      right
      by_cases hn : 0 < n
      · obtain ⟨got, own, tail, pend, chains', hgot, hreceived⟩ :=
          receive_from_shadow_exact hback hget h hqueued hn
        refine ⟨got, own, tail, pend, chains', hgot, ?_⟩
        refine (hreceived.from_shadow hback hx).mono fun hok => ⟨?_, hok.2⟩
        obtain ⟨⟨hfirst, hsecond⟩, hrem⟩ := show _ ∧ _ from ⟨hok.1 hn, hok.2⟩
        have hcongr := @boundaryOk_congr c.descr d.descr (by rw [hback.descr]) (by rw [hback.descr])
        have hmod := Nat.mod_eq_of_lt (hrem (by rw [h.pending.1]; simp))
        rw [hback.lens, hmod, List.sum_cons]
        refine ⟨(hcongr _ _).mpr hfirst, ?_⟩
        intro hless ids hids
        have hlens : lensOf d.mem ids = lensOf c.mem ids := by
          apply List.map_congr_left
          intro i hi
          have hmem : i ∈ chains.flatten :=
            List.mem_flatten.mpr ⟨ids, List.mem_of_mem_head? hids, hi⟩
          rw [hback.others i fun heq => hx (heq ▸ hmem)]
        rw [hlens]
        exact (hcongr _ _).mpr (hsecond hless ids hids)
      · obtain rfl : n = 0 := by omega
        obtain ⟨got, own, tail, pend, chains', hgot, hreceived⟩ :=
          receive_from_shadow_any hback hget h hqueued
        refine ⟨got, own, tail, pend, chains', hgot, ?_⟩
        exact (hreceived.from_shadow hback hx).mono fun hok => ⟨trivial, hok.2⟩

end Paths

end IpAugenblick
