/-
# A call that nobody disturbs

A thread that calls while the others are idle, and takes all its steps, does exactly what the
queue of `Lib.Ring` does, whatever the indices are and wherever the objects lie in the slots; and
it returns the code of the queue.
-/

import IpAugenblick.Dpdk.RingFifo
import Mathlib.Logic.Relation

namespace IpAugenblick

open Lib

universe u v

def Lib.EnqueueCode.ret : EnqueueCode → Int
  | .success => 0
  | .quota => -122
  | .nobufs => -105

/-- What a burst enqueue returns: the number of objects stored, with `RTE_RING_QUOT_EXCEED` above
the water mark. -/
def burstRet {α : Type v} {cap : ℕ} (watermark : ℕ) (q : Ring α cap) (objs : List α) : Int :=
  let n := min q.freeCount objs.length
  if n = 0 then 0
  else if watermark < (cap + 1) - q.freeCount + n then (n : Int) - 2 ^ 31 else n

/-- What the queue does in a call: what it returns, and the queue behind it. -/
def RingCall.serve {α : Type v} {cap : ℕ} (watermark : ℕ) (q : Ring α cap) :
    RingCall α → (Int × List α) × Ring α cap
  | .enqueue objs true _ =>
      (((q.enqueueBulk watermark objs).1.ret, []), (q.enqueueBulk watermark objs).2)
  | .enqueue objs false _ => ((burstRet watermark q objs, []), q.enqueueBurst objs)
  | .dequeue max true _ =>
      if q.count < max then ((-2, []), q) else ((0, (q.dequeueBurst max).1), (q.dequeueBurst max).2)
  | .dequeue max false _ =>
      (((q.dequeueBurst max).1.length, (q.dequeueBurst max).1), (q.dequeueBurst max).2)

/-- The call asks for objects. -/
def RingCall.Asks {α : Type v} : RingCall α → Prop
  | .enqueue objs _ _ => objs ≠ []
  | .dequeue max _ _ => max ≠ 0

namespace RingThreads

variable {ι : Type u} {α : Type v} [DecidableEq ι] {s s' : RingThreads ι α} {t : ι}

/-- The thread takes some steps, and nobody else does. -/
def Advances (t : ι) : RingThreads ι α → RingThreads ι α → Prop :=
  Relation.ReflTransGen fun s s' => s.advance t = some s'

/-- Nobody is in a call. -/
def Quiet (s : RingThreads ι α) : Prop := ∀ u, s.pc u = .idle

omit [DecidableEq ι] in
/-- In a quiet ring all tails have caught up. -/
theorem Ok.quiet (h : s.Ok) (hquiet : s.Quiet) :
    s.prodPos = s.log.length ∧ s.consPos = s.takenPos := by
  constructor
  · refine Nat.le_antisymm h.prodLe (Nat.le_of_not_lt fun hlt => ?_)
    obtain ⟨u, n, hu⟩ := h.producers.exists_first hlt
    rw [hquiet u] at hu
    cases hu
  · refine Nat.le_antisymm h.consLe (Nat.le_of_not_lt fun hlt => ?_)
    obtain ⟨u, n, hu⟩ := h.consumers.exists_first hlt
    rw [hquiet u] at hu
    cases hu

/-- What the stores of a producer leave alone. -/
structure Stored (s s' : RingThreads ι α) (t : ι) (next : RingPc α) : Prop where
  ok : s'.Ok
  pc : s'.pc = Function.update s.pc t next
  log : s'.log = s.log
  prodPos : s'.prodPos = s.prodPos
  takenPos : s'.takenPos = s.takenPos
  ret : s'.ret = s.ret
  ring : s'.ring = { s.ring with slots := s'.ring.slots }

/-- The stores one after the other. -/
theorem Ok.stores (h : s.Ok) {objs : List α} {fixed single : Bool} {head free : BitVec 32}
    {n pos k : ℕ} (hpc : s.pc t = .enqStore objs fixed single head free n pos k) :
    ∃ s', Advances t s s' ∧ Stored s s' t (.enqStore objs fixed single head free n pos n) := by
  generalize hm : n - k = m
  induction m generalizing s k with
  | zero =>
      have hthread := h.threads t
      rw [hpc] at hthread
      obtain rfl : k = n := Nat.le_antisymm hthread.le (by omega)
      exact ⟨s, .refl, h, by rw [← hpc, Function.update_eq_self], rfl, rfl, rfl, rfl, rfl⟩
  | succ m ih =>
      have hthread := h.threads t
      rw [hpc] at hthread
      have hstoring : Storing s.ring.size s.ring.slots s.log s.prodPos objs single head n pos k :=
        hthread
      have hk : k < n := by omega
      obtain ⟨x, hx⟩ : ∃ x, objs[k]? = some x :=
        ⟨_, List.getElem?_eq_getElem (hk.trans_le hstoring.count)⟩
      have hptrs := RteRing.ptrs_getElem? h.order pos hstoring.fits.le k
      rw [← hstoring.reads, if_pos hk] at hptrs
      have hstep : s.advance t = some (s.store t ((pos + k) % s.ring.size) x
          (.enqStore objs fixed single head free n pos (k + 1))) := by
        rw [RingThreads.advance, hpc]
        dsimp only
        rw [hptrs]
        dsimp only
        rw [hx, Option.map_some]
      obtain ⟨s', hrun, hs'⟩ := ih (h.store hpc hk hx) (Function.update_self ..) (by omega)
      refine ⟨s', .head hstep hrun, hs'.ok, ?_, hs'.log, hs'.prodPos, hs'.takenPos, hs'.ret,
        hs'.ring⟩
      rw [hs'.pc]
      exact Function.update_idem ..

/-- What a call that nobody disturbs has done when it is back. -/
structure Alone.Done (s s' : RingThreads ι α) (t : ι) (ret : Int × List α) (contents : List α) :
    Prop where
  ok : s'.Ok
  quiet : s'.Quiet
  ret : s'.ret t = ret
  contents : s'.contents = contents
  order : s'.ring.order = s.ring.order
  watermark : s'.ring.watermark = s.ring.watermark

theorem goto_goto (s : RingThreads ι α) (t : ι) (first next : RingPc α) :
    (s.goto t first).goto t next = s.goto t next := by
  simp [RingThreads.goto, Function.update_idem]

theorem leave_goto (s : RingThreads ι α) (t : ι) (pc : RingPc α) (code : Int) (objs : List α) :
    (s.goto t pc).leave t code objs = s.leave t code objs := by
  simp [RingThreads.goto, RingThreads.leave, Function.update_idem]

theorem claim_goto (s : RingThreads ι α) (t : ι) (pc next : RingPc α) (prodHead : BitVec 32)
    (objs : List α) : (s.goto t pc).claim t prodHead objs next = s.claim t prodHead objs next := by
  simp [RingThreads.goto, RingThreads.claim, Function.update_idem]

theorem goto_pc (s : RingThreads ι α) (t : ι) (pc : RingPc α) : (s.goto t pc).pc t = pc :=
  Function.update_self ..

/-- A thread that went away and is back. -/
theorem quiet_update (hquiet : s.Quiet) {pc : ι → RingPc α} (hpc : ∀ u, u ≠ t → pc u = s.pc u)
    (u : ι) : Function.update pc t .idle u = .idle := by
  rw [Function.update_apply]
  split
  next => rfl
  next hne => exact (hpc u hne).trans (hquiet u)

omit [DecidableEq ι] in
/-- The room in a quiet ring. -/
theorem Ok.freeCount_eq (h : s.Ok) (hquiet : s.Quiet) :
    (s.ring.mask + s.ring.consTail - s.ring.prodHead).toNat = h.queue.freeCount := by
  obtain ⟨hprod, hcons⟩ := h.quiet hquiet
  have hprodLe := h.prodLe
  have htakenLe := h.takenLe
  rw [h.prodHead, h.free_eq rfl, Ring.freeCount]
  change _ = s.ring.size - 1 - s.contents.length
  rw [Ok.length_contents]
  omega

/-- What `rte_ring_count`, `rte_ring_free_count`, `rte_ring_full` and `rte_ring_empty` tell of a
ring is what they are to tell of the queue. -/
structure CountsOf (ring : RteRing α) {cap : ℕ} (q : Ring α cap) : Prop where
  count : ring.rteRingCount.toNat = q.items.length
  freeCount : ring.rteRingFreeCount.toNat = q.freeCount
  full : ring.rteRingFull = true ↔ q.freeCount = 0
  empty : ring.rteRingEmpty = true ↔ q.items = []

omit [DecidableEq ι] in
theorem Ok.countsOf (h : s.Ok) (hquiet : s.Quiet) : CountsOf s.ring h.queue := by
  obtain ⟨-, hcons⟩ := h.quiet hquiet
  obtain ⟨hcount, hfree, hfull, hempty⟩ := h.counts
  have hlength : h.queue.items.length = s.prodPos - s.consPos := by
    rw [hcons]
    exact Ok.length_contents
  have hfreeCount : h.queue.freeCount = s.ring.size - 1 - (s.prodPos - s.consPos) := by
    rw [Ring.freeCount, hlength]
  have hprodLe : s.consPos ≤ s.prodPos := hcons.trans_le h.takenLe
  have hroom := h.room
  have hprodLog := h.prodLe
  refine ⟨hcount.trans hlength.symm, hfree.trans hfreeCount.symm, hfull.trans ?_,
    hempty.trans ?_⟩
  · rw [hfreeCount]
    omega
  · rw [← List.length_eq_zero_iff, hlength]
    omega

omit [DecidableEq ι] in
/-- The contents when more is in the log and published. -/
theorem contents_append (h : s.Ok) (hquiet : s.Quiet) (h' : s'.Ok) {objs : List α}
    (hlog : s'.log = s.log ++ objs) (hprod : s'.prodPos = s.prodPos + objs.length)
    (htaken : s'.takenPos = s.takenPos) : s'.contents = s.contents ++ objs := by
  obtain ⟨hall, -⟩ := h.quiet hquiet
  rw [h'.contents_eq, h.contents_eq, hlog, hprod, htaken, hall, List.take_length,
    ← List.length_append, List.take_length, List.drop_append_of_le_length]
  rw [← hall]
  exact h.takenLe

section Enqueue

variable {objs : List α}

/-- The first steps of an enqueue: the head, and then how much room there is. -/
theorem Ok.enqueue_starts (h : s.Ok) (hquiet : s.Quiet) (t : ι) (hne : objs ≠ [])
    (fixed single : Bool) :
    ∃ s₁, s.call t (.enqueue objs fixed single) = some s₁ ∧
      Advances t s₁ (s.goto t (.enqTail objs fixed single s.ring.prodHead s.log.length)) ∧
      (s.goto t (.enqTail objs fixed single s.ring.prodHead s.log.length)).Ok := by
  have hcall : s.call t (.enqueue objs fixed single) =
      some (s.goto t (.enqHead objs fixed single)) := by
    rw [RingThreads.call, hquiet t]
    exact if_neg fun hnil => hne hnil.2
  have hguard : s.Guarded (.call t (.enqueue objs fixed single)) := by
    intro u b _ hu
    rw [hquiet u] at hu
    cases hu
  have hstep : (s.goto t (.enqHead objs fixed single)).advance t =
      some (s.goto t (.enqTail objs fixed single s.ring.prodHead s.log.length)) := by
    rw [RingThreads.advance, goto_pc]
    dsimp only
    rw [goto_goto]
    rfl
  refine ⟨_, hcall, .single hstep, (h.call hguard hcall).advance ?_ hstep⟩
  rw [Guarded, goto_pc]
  trivial

theorem advance_enqTail (s : RingThreads ι α) (t : ι) (fixed single : Bool) (head : BitVec 32)
    (pos : ℕ) {free : BitVec 32} (hfree : s.ring.mask + s.ring.consTail - head = free) :
    (s.goto t (.enqTail objs fixed single head pos)).advance t =
      if free.toNat < objs.length then
        if fixed = true then some (s.leave t (-105) [])
        else if free = 0 then some (s.leave t 0 [])
        else some (s.goto t (.enqCas objs fixed single head free free.toNat pos))
      else some (s.goto t (.enqCas objs fixed single head free objs.length pos)) := by
  subst hfree
  rw [RingThreads.advance, goto_pc]
  simp only [goto_goto, leave_goto]
  rfl

/-- An enqueue that finds too little room. -/
theorem Ok.enqueue_refused (h : s.Ok) (hquiet : s.Quiet) (t : ι) (hne : objs ≠ [])
    (fixed single : Bool) (hshort : h.queue.freeCount < objs.length)
    (hno : fixed = true ∨ h.queue.freeCount = 0) :
    ∃ s₁ s', s.call t (.enqueue objs fixed single) = some s₁ ∧ Advances t s₁ s' ∧
      Alone.Done s s' t (if fixed then -105 else 0, []) s.contents := by
  obtain ⟨s₁, hcall, hrun, hmid⟩ := h.enqueue_starts hquiet t hne fixed single
  have hfree := h.freeCount_eq hquiet
  have hstep : (s.goto t (.enqTail objs fixed single s.ring.prodHead s.log.length)).advance t =
      some (s.leave t (if fixed then -105 else 0) []) := by
    rw [s.advance_enqTail t fixed single _ _ rfl, hfree, if_pos hshort]
    cases fixed with
    | true => rfl
    | false =>
        have hzero : s.ring.mask + s.ring.consTail - s.ring.prodHead = 0 := by
          refine BitVec.eq_of_toNat_eq ?_
          rw [hfree]
          exact hno.resolve_left Bool.false_ne_true
        rw [if_neg Bool.false_ne_true, if_pos hzero]
        rfl
  refine ⟨s₁, _, hcall, hrun.tail hstep, ?_, quiet_update hquiet fun _ _ => rfl,
    Function.update_self .., rfl, rfl, rfl⟩
  exact hmid.advance (by rw [Guarded, goto_pc]; trivial) hstep

/-- An enqueue that finds room for `n`. -/
theorem Ok.enqueue_accepted (h : s.Ok) (hquiet : s.Quiet) (t : ι) (hne : objs ≠ [])
    (fixed single : Bool) {n : ℕ}
    (hn : n = if h.queue.freeCount < objs.length then h.queue.freeCount else objs.length)
    (hgo : h.queue.freeCount < objs.length → fixed = false ∧ h.queue.freeCount ≠ 0) :
    ∃ s₁ s', s.call t (.enqueue objs fixed single) = some s₁ ∧ Advances t s₁ s' ∧
      Alone.Done s s' t
        (s.ring.enqueueRet fixed (s.ring.mask + s.ring.consTail - s.ring.prodHead) n, [])
        (s.contents ++ objs.take n) := by
  obtain ⟨s₁, hcall, hrun, hmid⟩ := h.enqueue_starts hquiet t hne fixed single
  have hfreeNat := h.freeCount_eq hquiet
  generalize hfree : s.ring.mask + s.ring.consTail - s.ring.prodHead = free at hfreeNat ⊢
  have hroom : (s.goto t (.enqTail objs fixed single s.ring.prodHead s.log.length)).advance t =
      some (s.goto t (.enqCas objs fixed single s.ring.prodHead free n s.log.length)) := by
    rw [s.advance_enqTail t fixed single _ _ hfree, hfreeNat, hn]
    split
    next hshort =>
      obtain ⟨hburst, hsome⟩ := hgo hshort
      have hne : free ≠ 0 := fun hzero => hsome (by rw [← hfreeNat, hzero]; rfl)
      rw [if_neg (by rw [hburst]; exact Bool.false_ne_true), if_neg hne]
    next => rfl
  have hokCas := hmid.advance (by rw [Guarded, goto_pc]; trivial) hroom
  have hcas : (s.goto t (.enqCas objs fixed single s.ring.prodHead free n s.log.length)).advance t =
      some (s.claim t (s.ring.prodHead + BitVec.ofNat 32 n) (objs.take n)
        (.enqStore objs fixed single s.ring.prodHead free n s.log.length 0)) := by
    rw [RingThreads.advance, goto_pc]
    dsimp only
    rw [if_pos (.inr rfl), claim_goto]
  have hokStore := hokCas.advance (by
    rw [Guarded, goto_pc]
    exact Nat.lt_add_of_pos_right (by decide)) hcas
  obtain ⟨s₅, hstores, hdone⟩ := hokStore.stores (Function.update_self ..)
  have hpc : s₅.pc t = .enqStore objs fixed single s.ring.prodHead free n s.log.length n := by
    rw [hdone.pc]
    exact Function.update_self ..
  have hthread := hdone.ok.threads t
  rw [hpc] at hthread
  have hstoring : Storing s₅.ring.size s₅.ring.slots s₅.log s₅.prodPos objs single
    s.ring.prodHead n s.log.length n := hthread
  have hptrs := RteRing.ptrs_getElem? hdone.ok.order s.log.length hstoring.fits.le n
  rw [← hstoring.reads, if_neg (lt_irrefl n)] at hptrs
  have htail : s₅.ring.prodTail = s.ring.prodHead := by
    rw [hdone.ring]
    show s.ring.prodTail = s.ring.prodHead
    rw [h.prodTail, h.prodHead, (h.quiet hquiet).1]
  have hret : s₅.ring.enqueueRet fixed free n = s.ring.enqueueRet fixed free n := by
    rw [hdone.ring]
    rfl
  have hlast : s₅.advance t = some ((s₅.publish t (s.ring.prodHead + BitVec.ofNat 32 n)
      (objs.take n)).leave t (s.ring.enqueueRet fixed free n) []) := by
    rw [RingThreads.advance, hpc]
    dsimp only
    rw [hptrs]
    dsimp only
    rw [if_pos (.inr htail), hret]
  have hok' := hdone.ok.advance (by rw [Guarded, hpc]; trivial) hlast
  refine ⟨s₁, _, hcall, ((hrun.tail hroom).tail hcas).trans (hstores.tail hlast), hok', ?_,
    Function.update_self .., ?_, ?_, ?_⟩
  · refine quiet_update hquiet fun u hne => ?_
    show s₅.pc u = s.pc u
    rw [hdone.pc, Function.update_of_ne hne]
    exact Function.update_of_ne hne ..
  · refine contents_append h hquiet hok' hdone.log ?_ hdone.takenPos
    exact congrArg (· + (objs.take n).length) hdone.prodPos
  · show s₅.ring.order = s.ring.order
    rw [hdone.ring]
    rfl
  · show s₅.ring.watermark = s.ring.watermark
    rw [hdone.ring]
    rfl

omit [DecidableEq ι] in
/-- The return value of the code is the one of the queue. -/
theorem Ok.enqueueRet_eq (h : s.Ok) (hquiet : s.Quiet) (fixed : Bool) {n : ℕ}
    (hn : n ≤ h.queue.freeCount) :
    s.ring.enqueueRet fixed (s.ring.mask + s.ring.consTail - s.ring.prodHead) n =
      if s.ring.watermark.toNat < (s.ring.size - 1 + 1) - h.queue.freeCount + n then
        if fixed then -122 else (n : Int) - 2 ^ 31
      else if fixed then 0 else (n : Int) := by
  have hfree := h.freeCount_eq hquiet
  have hbound : h.queue.freeCount ≤ s.ring.size - 1 := Nat.sub_le _ _
  have hpos := s.ring.size_pos
  have hsize : s.ring.size < 2 ^ 32 := Nat.pow_lt_pow_right (by decide) h.order
  have hmask := RteRing.toNat_mask h.order
  generalize s.ring.mask + s.ring.consTail - s.ring.prodHead = free at hfree ⊢
  have hsum : (s.ring.mask + 1 - free + BitVec.ofNat 32 n).toNat =
      (s.ring.size - 1 + 1) - h.queue.freeCount + n := by
    have hone : (1 : BitVec 32) = BitVec.ofNat 32 1 := rfl
    have hsub : (BitVec.ofNat 32 s.ring.size - BitVec.ofNat 32 free.toNat).toNat =
        s.ring.size - free.toNat := toNat_ofNat_sub_ofNat (by omega) (by omega)
    rw [BitVec.ofNat_toNat, BitVec.setWidth_eq] at hsub
    rw [RteRing.mask, hone, ← BitVec.ofNat_add, Nat.sub_add_cancel hpos, BitVec.toNat_add, hsub,
      BitVec.toNat_ofNat, hfree, Nat.mod_eq_of_lt (by omega : n < 2 ^ 32), Nat.mod_eq_of_lt]
    omega
  simp only [RteRing.enqueueRet, BitVec.lt_def, hsum]

/-- **A bulk enqueue alone** is that of the queue: all objects or none, and the code. -/
theorem Ok.enqueue_bulk_alone (h : s.Ok) (hquiet : s.Quiet) (t : ι) (hne : objs ≠ [])
    (single : Bool) :
    ∃ s₁ s', s.call t (.enqueue objs true single) = some s₁ ∧ Advances t s₁ s' ∧
      Alone.Done s s' t ((h.queue.enqueueBulk s.ring.watermark.toNat objs).1.ret, [])
        (h.queue.enqueueBulk s.ring.watermark.toNat objs).2.items := by
  by_cases hshort : h.queue.freeCount < objs.length
  · have hbulk : h.queue.enqueueBulk s.ring.watermark.toNat objs = (.nobufs, h.queue) :=
      if_pos hshort
    rw [hbulk]
    exact h.enqueue_refused hquiet t hne true single hshort (.inl rfl)
  · have hrun := h.enqueue_accepted hquiet t hne true single (n := objs.length)
      (if_neg hshort).symm fun hlt => absurd hlt hshort
    rw [h.enqueueRet_eq hquiet true (Nat.not_lt.mp hshort), List.take_length] at hrun
    have hitems := h.queue.items_enqueueBurst (Nat.not_lt.mp hshort)
    rw [Ring.enqueueBulk, if_neg hshort]
    split at hrun
    next hmark =>
      rw [if_pos hmark, hitems]
      exact hrun
    next hmark =>
      rw [if_neg hmark, hitems]
      exact hrun

/-- **A burst enqueue alone** stores what fits. -/
theorem Ok.enqueue_burst_alone (h : s.Ok) (hquiet : s.Quiet) (t : ι) (hne : objs ≠ [])
    (single : Bool) :
    ∃ s₁ s', s.call t (.enqueue objs false single) = some s₁ ∧ Advances t s₁ s' ∧
      Alone.Done s s' t (burstRet s.ring.watermark.toNat h.queue objs, [])
        (h.queue.enqueueBurst objs).items := by
  have hlen : 0 < objs.length := List.length_pos_iff.mpr hne
  by_cases hzero : h.queue.freeCount = 0
  · have hnone : (h.queue.enqueueBurst objs).items = s.contents := by
      show s.contents ++ objs.take h.queue.freeCount = s.contents
      rw [hzero, List.take_zero, List.append_nil]
    have hret : burstRet s.ring.watermark.toNat h.queue objs = 0 := by
      rw [burstRet, hzero, Nat.zero_min]
      rfl
    rw [hnone, hret]
    exact h.enqueue_refused hquiet t hne false single (by omega) (.inr hzero)
  · obtain ⟨n, hn⟩ : ∃ n, n = if h.queue.freeCount < objs.length then h.queue.freeCount
        else objs.length := ⟨_, rfl⟩
    have hmin : min h.queue.freeCount objs.length = n := by
      rw [hn]
      split <;> omega
    have hrun := h.enqueue_accepted hquiet t hne false single hn fun _ => ⟨rfl, hzero⟩
    have hitems : (h.queue.enqueueBurst objs).items = s.contents ++ objs.take n := by
      show s.contents ++ objs.take h.queue.freeCount = _
      rw [hn]
      split
      next => rfl
      next hfit => rw [List.take_length, List.take_of_length_le (Nat.not_lt.mp hfit)]
    rw [h.enqueueRet_eq hquiet false (by omega)] at hrun
    rw [hitems, burstRet, hmin, if_neg (by omega)]
    exact hrun

end Enqueue

section Dequeue

/-- What the loads of a consumer leave alone. -/
theorem Ok.loads (h : s.Ok) {fixed single : Bool} {head : BitVec 32} {n pos : ℕ} {got : List α}
    (hpc : s.pc t = .deqLoad fixed single head n pos got) :
    ∃ got', got'.length = n ∧ Advances t s (s.goto t (.deqLoad fixed single head n pos got')) ∧
      (s.goto t (.deqLoad fixed single head n pos got')).Ok := by
  generalize hm : n - got.length = m
  induction m generalizing s got with
  | zero =>
      have hthread := h.threads t
      rw [hpc] at hthread
      refine ⟨got, Nat.le_antisymm hthread.le (by omega), ?_⟩
      have hsame : s.goto t (.deqLoad fixed single head n pos got) = s := by
        rw [← hpc, RingThreads.goto, Function.update_eq_self]
      rw [hsame]
      exact ⟨.refl, h⟩
  | succ m ih =>
      have hthread := h.threads t
      rw [hpc] at hthread
      have hloading : Loading s.ring.size s.log s.consPos s.takenPos single head n pos got :=
        hthread
      have hk : got.length < n := by omega
      have hptrs := RteRing.ptrs_getElem? h.order pos hloading.fits.le got.length
      rw [← hloading.reads, if_pos hk] at hptrs
      have hstep : s.advance t = some (s.goto t (.deqLoad fixed single head n pos
          (got ++ [s.ring.slots ((pos + got.length) % s.ring.size)]))) := by
        rw [RingThreads.advance, hpc]
        dsimp only
        rw [hptrs]
      have hok := h.advance (by rw [Guarded, hpc]; trivial) hstep
      obtain ⟨got', hlen, hrun, hok'⟩ := ih hok (goto_pc ..)
        (by rw [List.length_append, List.length_singleton]; omega)
      rw [goto_goto] at hrun hok'
      exact ⟨got', hlen, .head hstep hrun, hok'⟩

theorem advance_deqTail (s : RingThreads ι α) (t : ι) (max : ℕ) (fixed single : Bool)
    (head : BitVec 32) (pos : ℕ) :
    (s.goto t (.deqTail max fixed single head pos)).advance t =
      if (s.ring.prodTail - head).toNat < max then
        if fixed = true then some (s.leave t (-2) [])
        else if s.ring.prodTail - head = 0 then some (s.leave t 0 [])
        else some (s.goto t (.deqCas max fixed single head (s.ring.prodTail - head).toNat pos))
      else some (s.goto t (.deqCas max fixed single head max pos)) := by
  rw [RingThreads.advance, goto_pc]
  simp only [goto_goto, leave_goto]
  rfl

/-- The first steps of a dequeue: the head, and then how many objects there are. -/
theorem Ok.dequeue_starts (h : s.Ok) (hquiet : s.Quiet) (t : ι) {max : ℕ} (hmax : max ≠ 0)
    (fixed single : Bool) :
    ∃ s₁, s.call t (.dequeue max fixed single) = some s₁ ∧
      Advances t s₁ (s.goto t (.deqTail max fixed single s.ring.consHead s.takenPos)) ∧
      (s.goto t (.deqTail max fixed single s.ring.consHead s.takenPos)).Ok := by
  have hcall : s.call t (.dequeue max fixed single) =
      some (s.goto t (.deqHead max fixed single)) := by
    rw [RingThreads.call, hquiet t]
    exact if_neg fun hzero => hmax hzero.2
  have hguard : s.Guarded (.call t (.dequeue max fixed single) : RingAct ι α) := by
    intro u b _ hu
    rw [hquiet u] at hu
    cases hu
  have hstep : (s.goto t (.deqHead max fixed single)).advance t =
      some (s.goto t (.deqTail max fixed single s.ring.consHead s.takenPos)) := by
    rw [RingThreads.advance, goto_pc]
    dsimp only
    rw [goto_goto]
    rfl
  refine ⟨_, hcall, .single hstep, (h.call hguard hcall).advance ?_ hstep⟩
  rw [Guarded, goto_pc]
  trivial

omit [DecidableEq ι] in
/-- The objects in a quiet ring. -/
theorem Ok.count_eq (h : s.Ok) : (s.ring.prodTail - s.ring.consHead).toNat = s.contents.length := by
  rw [h.consHead, h.entries_eq rfl, Ok.length_contents]

/-- A dequeue that finds too few objects. -/
theorem Ok.dequeue_refused (h : s.Ok) (hquiet : s.Quiet) (t : ι) {max : ℕ}
    (fixed single : Bool) (hshort : s.contents.length < max)
    (hno : fixed = true ∨ s.contents.length = 0) :
    ∃ s₁ s', s.call t (.dequeue max fixed single) = some s₁ ∧ Advances t s₁ s' ∧
      Alone.Done s s' t (if fixed then -2 else 0, []) s.contents := by
  have hmax : max ≠ 0 := Nat.ne_of_gt (Nat.zero_lt_of_lt hshort)
  obtain ⟨s₁, hcall, hrun, hmid⟩ := h.dequeue_starts hquiet t hmax fixed single
  have hstep : (s.goto t (.deqTail max fixed single s.ring.consHead s.takenPos)).advance t =
      some (s.leave t (if fixed then -2 else 0) []) := by
    rw [advance_deqTail, h.count_eq, if_pos hshort]
    cases fixed with
    | true => rfl
    | false =>
        have hzero : s.ring.prodTail - s.ring.consHead = 0 := by
          refine BitVec.eq_of_toNat_eq ?_
          rw [h.count_eq]
          exact hno.resolve_left Bool.false_ne_true
        rw [if_neg Bool.false_ne_true, if_pos hzero]
        rfl
  refine ⟨s₁, _, hcall, hrun.tail hstep, ?_, quiet_update hquiet fun _ _ => rfl,
    Function.update_self .., rfl, rfl, rfl⟩
  exact hmid.advance (by rw [Guarded, goto_pc]; trivial) hstep

theorem take_goto (s : RingThreads ι α) (t : ι) (pc next : RingPc α) (consHead : BitVec 32)
    (n : ℕ) : (s.goto t pc).take t consHead n next = s.take t consHead n next := by
  simp [RingThreads.goto, RingThreads.take, Function.update_idem]

/-- A dequeue that finds `n` objects. -/
theorem Ok.dequeue_accepted (h : s.Ok) (hquiet : s.Quiet) (t : ι) {max : ℕ} (hmax : max ≠ 0)
    (fixed single : Bool) {n : ℕ}
    (hn : n = if s.contents.length < max then s.contents.length else max)
    (hgo : s.contents.length < max → fixed = false ∧ s.contents.length ≠ 0) :
    ∃ s₁ s', s.call t (.dequeue max fixed single) = some s₁ ∧ Advances t s₁ s' ∧
      Alone.Done s s' t (if fixed then 0 else (n : Int), s.contents.take n)
        (s.contents.drop n) := by
  obtain ⟨s₁, hcall, hrun, hmid⟩ := h.dequeue_starts hquiet t hmax fixed single
  have hthere : n ≤ s.contents.length := by
    rw [hn]
    split <;> omega
  have hentries : (s.goto t (.deqTail max fixed single s.ring.consHead s.takenPos)).advance t =
      some (s.goto t (.deqCas max fixed single s.ring.consHead n s.takenPos)) := by
    rw [advance_deqTail, h.count_eq, hn]
    split
    next hshort =>
      obtain ⟨hburst, hsome⟩ := hgo hshort
      have hne : s.ring.prodTail - s.ring.consHead ≠ 0 := fun hzero => hsome (by
        rw [← h.count_eq, hzero]
        rfl)
      rw [if_neg (by rw [hburst]; exact Bool.false_ne_true), if_neg hne]
    next => rfl
  have hokCas := hmid.advance (by rw [Guarded, goto_pc]; trivial) hentries
  have hcas : (s.goto t (.deqCas max fixed single s.ring.consHead n s.takenPos)).advance t =
      some (s.take t (s.ring.consHead + BitVec.ofNat 32 n) n
        (.deqLoad fixed single s.ring.consHead n s.takenPos [])) := by
    rw [RingThreads.advance, goto_pc]
    dsimp only
    rw [if_pos (.inr rfl), take_goto]
  have hokTake := hokCas.advance (by
    rw [Guarded, goto_pc]
    exact Nat.lt_add_of_pos_right (by decide)) hcas
  obtain ⟨got, hlen, hloads, hokLoad⟩ := hokTake.loads (Function.update_self ..)
  generalize hs₄ : (s.take t (s.ring.consHead + BitVec.ofNat 32 n) n
    (.deqLoad fixed single s.ring.consHead n s.takenPos [])).goto t
      (.deqLoad fixed single s.ring.consHead n s.takenPos got) = s₄ at hloads hokLoad
  have hpc : s₄.pc t = .deqLoad fixed single s.ring.consHead n s.takenPos got := by
    rw [← hs₄]
    exact goto_pc ..
  have hthread := hokLoad.threads t
  rw [hpc] at hthread
  have hloading : Loading s₄.ring.size s₄.log s₄.consPos s₄.takenPos single s.ring.consHead n
    s.takenPos got := hthread
  have hgot : got = s.contents.take n := by
    have hfrom := hloading.got
    rw [← hs₄, hlen] at hfrom
    rw [Ok.length_contents] at hthere
    rw [h.contents_eq, List.drop_take, List.take_take, Nat.min_eq_left hthere]
    exact hfrom
  have hptrs := RteRing.ptrs_getElem? hokLoad.order s.takenPos hloading.fits.le n
  rw [← hloading.reads, if_neg (lt_irrefl n)] at hptrs
  have htail : s₄.ring.consTail = s.ring.consHead := by
    rw [← hs₄]
    show s.ring.consTail = s.ring.consHead
    rw [h.consTail, h.consHead, (h.quiet hquiet).2]
  have hlast : s₄.advance t = some ((s₄.release t (s.ring.consHead + BitVec.ofNat 32 n) n
      got).leave t (if fixed then 0 else (n : Int)) got) := by
    rw [RingThreads.advance, hpc]
    dsimp only
    rw [hlen, hptrs]
    dsimp only
    rw [if_pos (.inr htail)]
  have hok' := hokLoad.advance (by rw [Guarded, hpc]; trivial) hlast
  refine ⟨s₁, _, hcall, ((hrun.tail hentries).tail hcas).trans (hloads.tail hlast), hok', ?_, ?_,
    ?_, ?_, ?_⟩
  · refine quiet_update hquiet fun u hne => ?_
    rw [← hs₄]
    exact (Function.update_of_ne hne ..).trans (Function.update_of_ne hne ..)
  · rw [← hgot]
    exact Function.update_self ..
  · rw [hok'.contents_eq, h.contents_eq, List.drop_drop, ← hs₄]
    rfl
  · rw [← hs₄]
    rfl
  · rw [← hs₄]
    rfl

/-- **A burst dequeue alone** takes what is there. -/
theorem Ok.dequeue_burst_alone (h : s.Ok) (hquiet : s.Quiet) (t : ι) {max : ℕ} (hmax : max ≠ 0)
    (single : Bool) :
    ∃ s₁ s', s.call t (.dequeue max false single) = some s₁ ∧ Advances t s₁ s' ∧
      Alone.Done s s' t
        (((h.queue.dequeueBurst max).1.length : Int), (h.queue.dequeueBurst max).1)
        (h.queue.dequeueBurst max).2.items := by
  rw [Ring.dequeueBurst_fst, Ring.items_dequeueBurst]
  change ∃ s₁ s', _ ∧ _ ∧ Alone.Done s s' t (((s.contents.take max).length : Int),
    s.contents.take max) (s.contents.drop max)
  by_cases hzero : s.contents.length = 0
  · rw [List.length_eq_zero_iff.mp hzero, List.take_nil, List.drop_nil]
    have hshort : s.contents.length < max := by
      rw [hzero]
      exact Nat.pos_of_ne_zero hmax
    have hrun := h.dequeue_refused hquiet t false single hshort (.inr hzero)
    rw [List.length_eq_zero_iff.mp hzero] at hrun
    exact hrun
  · obtain ⟨n, hn⟩ : ∃ n, n = if s.contents.length < max then s.contents.length else max :=
      ⟨_, rfl⟩
    have hrun := h.dequeue_accepted hquiet t hmax false single hn fun _ => ⟨rfl, hzero⟩
    have htake : s.contents.take max = s.contents.take n ∧ s.contents.drop max = s.contents.drop n ∧
        (s.contents.take max).length = n := by
      rw [hn]
      split
      next hshort =>
        rw [List.take_of_length_le hshort.le, List.take_length, List.drop_length,
          List.drop_eq_nil_of_le hshort.le]
        exact ⟨rfl, rfl, rfl⟩
      next henough =>
        rw [List.length_take, Nat.min_eq_left (Nat.not_lt.mp henough)]
        exact ⟨rfl, rfl, rfl⟩
    obtain ⟨htake, hdrop, hlen⟩ := htake
    rw [hlen, htake, hdrop]
    exact hrun

/-- **A bulk dequeue alone** takes all it asks for, or nothing. -/
theorem Ok.dequeue_bulk_alone (h : s.Ok) (hquiet : s.Quiet) (t : ι) {max : ℕ} (hmax : max ≠ 0)
    (single : Bool) (watermark : ℕ) :
    ∃ s₁ s', s.call t (.dequeue max true single) = some s₁ ∧ Advances t s₁ s' ∧
      Alone.Done s s' t (RingCall.serve watermark h.queue (.dequeue max true single)).1
        (RingCall.serve watermark h.queue (.dequeue max true single)).2.items := by
  by_cases hshort : s.contents.length < max
  · have hserve : RingCall.serve watermark h.queue (.dequeue max true single) =
        ((-2, []), h.queue) := if_pos hshort
    rw [hserve]
    exact h.dequeue_refused hquiet t true single hshort (.inl rfl)
  · have hserve : RingCall.serve watermark h.queue (.dequeue max true single) =
        ((0, (h.queue.dequeueBurst max).1), (h.queue.dequeueBurst max).2) := if_neg hshort
    rw [hserve]
    exact h.dequeue_accepted hquiet t hmax true single (if_neg hshort).symm
      fun hlt => absurd hlt hshort

end Dequeue

/-- **A call that nobody disturbs** is a call of the queue: whatever has happened before in the
ring, its counts are those of the queue, the thread comes back with the code and the objects of the
queue, and leaves its contents.  A call that asks for nothing is no call of the queue, which above
the water mark answers -EDQUOT to it where the ring returns 0 at once. -/
theorem ring_call_alone {order : ℕ} {slots : ℕ → α} (horder : order < 32)
    (hreach : (machine ι order slots).ReachableWhere Guarded s) (hquiet : s.Quiet) (t : ι)
    {c : RingCall α} (hasks : c.Asks) :
    ∃ (q : Ring α (s.ring.size - 1)) (s₁ s' : RingThreads ι α), q.items = s.contents ∧
      CountsOf s.ring q ∧ s.call t c = some s₁ ∧ Advances t s₁ s' ∧ s'.Quiet ∧
      s'.ret t = (c.serve s.ring.watermark.toNat q).1 ∧
      s'.contents = (c.serve s.ring.watermark.toNat q).2.items := by
  obtain ⟨hok, -⟩ := ok_of_reachable horder hreach
  have hdone : ∃ s₁ s', s.call t c = some s₁ ∧ Advances t s₁ s' ∧
      Alone.Done s s' t (c.serve s.ring.watermark.toNat hok.queue).1
        (c.serve s.ring.watermark.toNat hok.queue).2.items := by
    cases c with
    | enqueue objs fixed single =>
        cases fixed with
        | true => exact hok.enqueue_bulk_alone hquiet t hasks single
        | false => exact hok.enqueue_burst_alone hquiet t hasks single
    | dequeue max fixed single =>
        cases fixed with
        | true => exact hok.dequeue_bulk_alone hquiet t hasks single _
        | false => exact hok.dequeue_burst_alone hquiet t hasks single
  obtain ⟨s₁, s', hcall, hrun, hdone⟩ := hdone
  exact ⟨hok.queue, s₁, s', rfl, hok.countsOf hquiet, hcall, hrun, hdone.quiet, hdone.ret,
    hdone.contents⟩

/-- Three objects go in, above a water mark of two. -/
theorem ring_call_alone_quota :
    ∃ s s₁ s' : RingThreads Bool ℕ,
      (machine Bool 2 fun _ => 0).run [.setWaterMark 2] = some s ∧
      s.call true (.enqueue [7, 8, 9] true false) = some s₁ ∧ Advances true s₁ s' ∧
      s'.ret true = (-122, []) ∧ s'.contents = [7, 8, 9] := by
  have hreach : (machine Bool 2 fun _ => 0).ReachableWhere Guarded
      ((init 2 fun _ => 0 : RingThreads Bool ℕ).setWaterMark 2) :=
    .step (a := .setWaterMark 2) .init (fun _ => rfl) rfl
  obtain ⟨q, s₁, s', hq, -, hcall, hrun, -, hret, hcontents⟩ := ring_call_alone (by decide) hreach
    (fun _ => rfl) true (c := .enqueue [7, 8, 9] true false) (List.cons_ne_nil _ _)
  obtain rfl : q = .empty := Lib.Ring.ext hq
  exact ⟨_, s₁, s', rfl, hcall, hrun, hret.trans (by decide), hcontents.trans (by decide)⟩

end RingThreads

end IpAugenblick
