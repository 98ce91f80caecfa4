/-
# The ring is a queue

The operations of the threads, in the order in which they take effect, are the operations of one
bounded queue, and each thread gets back what its operation did there.  Some thread can always go
on, and a thread that runs alone computes what the queue computes, with the return codes.
-/

import IpAugenblick.Dpdk.RingThreads
import Mathlib.Data.Fintype.Basic

namespace IpAugenblick

open Lib

universe u v

variable {ι : Type u} {α : Type v}

def RingOp.thread : RingOp ι α → ι
  | .enqueue t _ | .dequeue t _ => t

/-- What a bounded queue that nobody shares does, one operation after the other. -/
inductive Legal (cap : ℕ) : List (RingOp ι α) → Ring α cap → Prop
  | nil : Legal cap [] .empty
  | enqueue {ops : List (RingOp ι α)} {q : Ring α cap} (t : ι) {objs : List α}
      (h : Legal cap ops q) (hfit : objs.length ≤ q.freeCount) :
      Legal cap (ops ++ [.enqueue t objs]) (q.enqueueBurst objs)
  | dequeue {ops : List (RingOp ι α)} {q : Ring α cap} (t : ι) {n : ℕ} (h : Legal cap ops q)
      (hthere : n ≤ q.count) :
      Legal cap (ops ++ [.dequeue t (q.dequeueBurst n).1]) (q.dequeueBurst n).2

def putBy (ops : List (RingOp ι α)) : List α :=
  ops.flatMap fun
    | .enqueue _ objs => objs
    | .dequeue _ _ => []

def takenBy (ops : List (RingOp ι α)) : List α :=
  ops.flatMap fun
    | .enqueue _ _ => []
    | .dequeue _ objs => objs

/-- On a queue everything comes out once and in order. -/
theorem Legal.conserved {cap : ℕ} {ops : List (RingOp ι α)} {q : Ring α cap}
    (h : Legal cap ops q) : takenBy ops ++ q.items = putBy ops := by
  induction h with
  | nil => rfl
  | enqueue t h hfit ih =>
      rw [putBy, List.flatMap_append, takenBy, List.flatMap_append, Ring.items_enqueueBurst _ hfit,
        ← putBy, ← takenBy, ← ih]
      simp
  | dequeue t h hthere ih =>
      rw [putBy, List.flatMap_append, takenBy, List.flatMap_append, Ring.items_dequeueBurst,
        ← putBy, ← takenBy, ← ih]
      simp

namespace RingThreads

/-- An operation that took effect and has not returned: objects that were taken. -/
def pending (log : List α) (t : ι) : RingPc α → List (RingOp ι α)
  | .deqLoad _ _ _ n pos _ => [.dequeue t ((log.drop pos).take n)]
  | _ => []

/-- The objects that can be dequeued, as they are in the slots. -/
def contents (s : RingThreads ι α) : List α :=
  (List.range (s.prodPos - s.takenPos)).map fun i => s.ring.slots ((s.takenPos + i) % s.ring.size)

variable [DecidableEq ι]

/-- The operations take effect as on a queue with these contents, and return what they did. -/
structure Effects (s : RingThreads ι α) : Prop where
  legal : ∃ q : Ring α (s.ring.size - 1), Legal _ s.effects q ∧
    q.items = (s.log.take s.prodPos).drop s.takenPos
  returns : ∀ t, s.effects.filter (fun op => decide (op.thread = t)) =
    s.returned.filter (fun op => decide (op.thread = t)) ++ pending s.log t (s.pc t)

section Steps

variable {s : RingThreads ι α} {t : ι}

omit [DecidableEq ι] in
/-- What can be dequeued are the objects that were put there. -/
theorem Ok.contents_eq (h : s.Ok) : s.contents = (s.log.take s.prodPos).drop s.takenPos := by
  have hprodLe := h.prodLe
  have hconsLe := h.consLe
  refine List.ext_getElem? fun i => ?_
  rw [contents, List.getElem?_map, List.getElem?_drop]
  rcases Nat.lt_or_ge i (s.prodPos - s.takenPos) with hlt | hge
  · rw [List.getElem?_range hlt, List.getElem?_take_of_lt (by omega),
      h.stored _ (by omega) (by omega)]
    rfl
  · rw [List.getElem?_eq_none (by rw [List.length_range]; exact hge),
      List.getElem?_eq_none (by rw [List.length_take]; omega)]
    rfl

/-- The books of the thread that moves and of the others. -/
theorem returns_update (h : s.Effects) {s' : RingThreads ι α} (pc : ι → RingPc α)
    (hpc : s.pc = pc) {next : RingPc α} (hnext : s'.pc = Function.update pc t next)
    (hothers : ∀ u, u ≠ t → pending s'.log u (pc u) = pending s.log u (pc u) ∧
      s'.effects.filter (fun op => decide (op.thread = u)) =
        s.effects.filter (fun op => decide (op.thread = u)) ∧
      s'.returned.filter (fun op => decide (op.thread = u)) =
        s.returned.filter (fun op => decide (op.thread = u)))
    (hthis : s'.effects.filter (fun op => decide (op.thread = t)) =
      s'.returned.filter (fun op => decide (op.thread = t)) ++ pending s'.log t next) :
    ∀ u, s'.effects.filter (fun op => decide (op.thread = u)) =
      s'.returned.filter (fun op => decide (op.thread = u)) ++ pending s'.log u (s'.pc u) := by
  intro u
  rw [hnext]
  rcases eq_or_ne u t with rfl | hne
  · rwa [Function.update_self]
  · obtain ⟨hpending, heffects, hreturned⟩ := hothers u hne
    rw [Function.update_of_ne hne, hpending, heffects, hreturned, ← hpc]
    exact h.returns u

/-- A step that changes no books. -/
theorem Effects.goto (h : s.Effects) {next : RingPc α}
    (hpending : pending s.log t next = pending s.log t (s.pc t)) : (s.goto t next).Effects where
  legal := h.legal
  returns := returns_update h s.pc rfl rfl (fun _ _ => ⟨rfl, rfl, rfl⟩) <| by
    show _ = s.returned.filter _ ++ pending s.log t next
    rw [hpending]
    exact h.returns t

theorem Effects.leave (h : s.Effects) (hpending : pending s.log t (s.pc t) = []) (code : Int)
    (objs : List α) : (s.leave t code objs).Effects where
  legal := h.legal
  returns := returns_update h s.pc rfl rfl (fun _ _ => ⟨rfl, rfl, rfl⟩) <| by
    show _ = s.returned.filter _ ++ []
    rw [← hpending]
    exact h.returns t

omit [DecidableEq ι] in
/-- What is taken does not change when more is enqueued. -/
theorem Ok.pending_append (h : s.Ok) (u : ι) (objs : List α) :
    pending (s.log ++ objs) u (s.pc u) = pending s.log u (s.pc u) := by
  have hthread := h.threads u
  have htakenLe := h.takenLe
  have hprodLe := h.prodLe
  generalize s.pc u = pc at hthread
  cases pc with
  | idle | enqHead | enqTail | enqCas | enqStore | deqHead | deqTail | deqCas => rfl
  | deqLoad fixed single head n pos got =>
      have hloading : Loading s.ring.size s.log s.consPos s.takenPos single head n pos got :=
        hthread
      have hhi := hloading.hi
      rw [pending, pending, List.drop_append_of_le_length (by omega),
        List.take_append_of_le_length (by rw [List.length_drop]; omega)]

theorem Effects.claim (h : s.Effects) (hok : s.Ok) {prodHead : BitVec 32} {objs : List α}
    {next : RingPc α} (hpc : pending (s.log ++ objs) t next = [])
    (hold : pending s.log t (s.pc t) = []) : (s.claim t prodHead objs next).Effects where
  legal := by
    obtain ⟨q, hlegal, hitems⟩ := h.legal
    refine ⟨q, hlegal, ?_⟩
    show _ = ((s.log ++ objs).take s.prodPos).drop s.takenPos
    rw [List.take_append_of_le_length hok.prodLe]
    exact hitems
  returns := returns_update h s.pc rfl rfl (fun u _ => ⟨hok.pending_append u objs, rfl, rfl⟩) <| by
    show _ = s.returned.filter _ ++ pending (s.log ++ objs) t next
    rw [hpc, ← hold]
    exact h.returns t

theorem Effects.store (h : s.Effects) {idx : ℕ} {x : α} {next : RingPc α}
    (hpc : pending s.log t next = pending s.log t (s.pc t)) : (s.store t idx x next).Effects where
  legal := h.legal
  returns := returns_update h s.pc rfl rfl (fun _ _ => ⟨rfl, rfl, rfl⟩) <| by
    show _ = s.returned.filter _ ++ pending s.log t next
    rw [hpc]
    exact h.returns t

/-- The operations of one thread, with one more of it or of another. -/
theorem filter_append_self {ops : List (RingOp ι α)} {op : RingOp ι α} {u : ι}
    (h : op.thread = u) : (ops ++ [op]).filter (fun op => decide (op.thread = u)) =
      ops.filter (fun op => decide (op.thread = u)) ++ [op] := by
  rw [List.filter_append, List.filter_singleton, decide_eq_true h]
  rfl

theorem filter_append_ne {ops : List (RingOp ι α)} {op : RingOp ι α} {u : ι}
    (h : op.thread ≠ u) : (ops ++ [op]).filter (fun op => decide (op.thread = u)) =
      ops.filter (fun op => decide (op.thread = u)) := by
  rw [List.filter_append, List.filter_singleton, decide_eq_false h]
  exact List.append_nil _

/-- A producer takes effect when it moves the tail: its objects are the next in the log. -/
theorem Effects.publish (h : s.Effects) (hok : s.Ok) {objs : List α} {fixed single : Bool}
    {head free : BitVec 32} {n pos k : ℕ}
    (hpc : s.pc t = .enqStore objs fixed single head free n pos k) (hpos : pos = s.prodPos)
    (prodTail : BitVec 32) (code : Int) :
    ((s.publish t prodTail (objs.take n)).leave t code []).Effects := by
  have hthread := hok.threads t
  rw [hpc] at hthread
  have hstoring : Storing s.ring.size s.ring.slots s.log s.prodPos objs single head n pos k :=
    hthread
  have hlen : (objs.take n).length = n := by
    rw [List.length_take, Nat.min_eq_left hstoring.count]
  have hhi := hstoring.hi
  have hroom := hok.room
  have hconsLe := hok.consLe
  have htakenLe := hok.takenLe
  have hprodLe := hok.prodLe
  have hnext : (s.log.drop s.prodPos).take n = objs.take n := by
    refine List.ext_getElem? fun i => ?_
    rw [List.getElem?_take, List.getElem?_take]
    split
    next hi =>
      rw [List.getElem?_drop, ← hpos]
      exact hstoring.logged i hi
    next => rfl
  refine ⟨?_, ?_⟩
  · obtain ⟨q, hlegal, hitems⟩ := h.legal
    have hcount : q.items.length = s.prodPos - s.takenPos := by
      rw [hitems, List.length_drop, List.length_take, Nat.min_eq_left hprodLe]
    have hfit : (objs.take n).length ≤ q.freeCount := by
      rw [hlen, Ring.freeCount, hcount]
      omega
    refine ⟨q.enqueueBurst (objs.take n), hlegal.enqueue t hfit, ?_⟩
    rw [Ring.items_enqueueBurst q hfit, hitems]
    show _ = (s.log.take (s.prodPos + (objs.take n).length)).drop s.takenPos
    rw [hlen, List.take_add, List.drop_append_of_le_length
      (by rw [List.length_take, Nat.min_eq_left hprodLe]; exact htakenLe), hnext]
  · refine returns_update h s.pc rfl rfl (fun u hne => ⟨rfl, ?_, ?_⟩) ?_
    · exact filter_append_ne fun heq => hne heq.symm
    · exact filter_append_ne fun heq => hne heq.symm
    · have hold := h.returns t
      rw [hpc] at hold
      change _ = _ ++ [] at hold
      rw [List.append_nil] at hold
      show (s.effects ++ [_]).filter _ = (s.returned ++ [_]).filter _ ++ []
      rw [List.append_nil, filter_append_self (u := t), filter_append_self (u := t), hold] <;> rfl

/-- A consumer takes effect when it moves the head: it will get the next objects. -/
theorem Effects.take (h : s.Effects) (hok : s.Ok) {max n pos : ℕ} {fixed single : Bool}
    {head : BitVec 32} (hpc : s.pc t = .deqCas max fixed single head n pos)
    (hpos : pos = s.takenPos) (consHead : BitVec 32) :
    (s.take t consHead n (.deqLoad fixed single head n pos [])).Effects := by
  have hthread := hok.threads t
  rw [hpc] at hthread
  obtain ⟨-, -, -, hthere⟩ := hthread
  have hthere := hthere hpos
  have hprodLe := hok.prodLe
  refine ⟨?_, ?_⟩
  · obtain ⟨q, hlegal, hitems⟩ := h.legal
    have hcount : q.items.length = s.prodPos - s.takenPos := by
      rw [hitems, List.length_drop, List.length_take, Nat.min_eq_left hprodLe]
    have hburst : (q.dequeueBurst n).1 = (s.log.drop s.takenPos).take n := by
      rw [Ring.dequeueBurst_fst, hitems, List.drop_take, List.take_take,
        Nat.min_eq_left (by omega)]
    refine ⟨(q.dequeueBurst n).2, ?_, ?_⟩
    · have hlegal := hlegal.dequeue t (n := n) (by rw [Ring.count, hcount]; omega)
      rwa [hburst] at hlegal
    · rw [Ring.items_dequeueBurst, hitems, List.drop_drop]
      rfl
  · refine returns_update h s.pc rfl rfl (fun u hne => ⟨rfl, ?_, rfl⟩) ?_
    · exact filter_append_ne fun heq => hne heq.symm
    · have hold := h.returns t
      rw [hpc] at hold
      change _ = _ ++ [] at hold
      rw [List.append_nil] at hold
      show (s.effects ++ [_]).filter _ = s.returned.filter _ ++ [_]
      rw [filter_append_self (u := t), hold, hpos] <;> rfl

/-- A consumer returns what it took. -/
theorem Effects.release (h : s.Effects) (hok : s.Ok) {n pos : ℕ} {fixed single : Bool}
    {head : BitVec 32} {got : List α} (hpc : s.pc t = .deqLoad fixed single head n pos got)
    (hdone : n ≤ got.length) (consTail : BitVec 32) (code : Int) :
    ((s.release t consTail n got).leave t code got).Effects := by
  have hthread := hok.threads t
  rw [hpc] at hthread
  have hloading : Loading s.ring.size s.log s.consPos s.takenPos single head n pos got := hthread
  have hgot : got = (s.log.drop pos).take n := by
    have heq : got.length = n := Nat.le_antisymm hloading.le hdone
    rw [← heq]
    exact hloading.got
  refine ⟨h.legal, ?_⟩
  refine returns_update h s.pc rfl rfl (fun u hne => ⟨rfl, rfl, ?_⟩) ?_
  · exact filter_append_ne fun heq => hne heq.symm
  · have hold := h.returns t
    rw [hpc, pending] at hold
    show s.effects.filter _ = (s.returned ++ [_]).filter _ ++ []
    rw [List.append_nil, filter_append_self (u := t), hold, ← hgot]
    rfl

theorem Effects.call (h : s.Effects) {c : RingCall α} {s' : RingThreads ι α}
    (hstep : s.call t c = some s') : s'.Effects := by
  unfold RingThreads.call at hstep
  split at hstep
  next hidle =>
    have hpending : pending s.log t (s.pc t) = [] := by
      rw [hidle]
      rfl
    cases c with
    | enqueue objs fixed single | dequeue max fixed single =>
        dsimp only at hstep
        split at hstep
        next =>
          cases hstep
          exact h.leave hpending 0 []
        next =>
          cases hstep
          exact h.goto (hpending ▸ rfl)
  next => cases hstep

theorem Effects.advance (h : s.Effects) (hok : s.Ok) (hguard : s.Guarded (.advance t))
    {s' : RingThreads ι α} (hstep : s.advance t = some s') : s'.Effects := by
  have hthread := hok.threads t
  have hnone : ∀ {pc : RingPc α}, s.pc t = pc → pending s.log t pc = [] →
      pending s.log t (s.pc t) = [] := by
    intro pc hpc hnil
    rw [hpc, hnil]
  unfold RingThreads.Guarded at hguard
  dsimp only at hguard
  unfold RingThreads.advance at hstep
  cases hpc : s.pc t with
  | idle =>
      rw [hpc] at hstep
      cases hstep
  | enqHead objs fixed single | deqHead max fixed single =>
      rw [hpc] at hstep
      cases hstep
      exact h.goto (hnone hpc rfl).symm
  | enqTail objs fixed single head pos | deqTail max fixed single head pos =>
      rw [hpc] at hstep
      dsimp only at hstep
      split at hstep
      next =>
        split at hstep
        next =>
          cases hstep
          exact h.leave (hnone hpc rfl) _ _
        next =>
          split at hstep
          next =>
            cases hstep
            exact h.leave (hnone hpc rfl) _ _
          next =>
            cases hstep
            exact h.goto (hnone hpc rfl).symm
      next =>
        cases hstep
        exact h.goto (hnone hpc rfl).symm
  | enqCas objs fixed single head free n pos =>
      rw [hpc] at hstep
      dsimp only at hstep
      split at hstep
      next =>
        cases hstep
        exact h.claim hok rfl (hnone hpc rfl)
      next =>
        cases hstep
        exact h.goto (hnone hpc rfl).symm
  | enqStore objs fixed single head free n pos k =>
      rw [hpc] at hstep
      dsimp only at hstep
      split at hstep
      next =>
        obtain ⟨x, -, rfl⟩ := Option.map_eq_some_iff.mp hstep
        exact h.store (hnone hpc rfl).symm
      next =>
        split at hstep
        next htail =>
          cases hstep
          exact h.publish hok hpc (hok.enqStore_pos hpc htail) _ _
        next => cases hstep
  | deqCas max fixed single head n pos =>
      rw [hpc] at hstep hguard
      dsimp only at hstep
      split at hstep
      next hcas =>
        cases hstep
        exact h.take hok hpc (hok.deqCas_pos hpc hguard hcas) _
      next =>
        cases hstep
        exact h.goto (hnone hpc rfl).symm
  | deqLoad fixed single head n pos got =>
      rw [hpc] at hstep hthread
      have hloading : Loading s.ring.size s.log s.consPos s.takenPos single head n pos got :=
        hthread
      have hptrs := RteRing.ptrs_getElem? hok.order pos hloading.fits.le got.length
      rw [← hloading.reads] at hptrs
      dsimp only at hstep
      rw [hptrs] at hstep
      by_cases hk : got.length < n
      · rw [if_pos hk] at hstep
        cases hstep
        exact h.goto (by rw [hpc]; rfl)
      · rw [if_neg hk] at hstep
        dsimp only at hstep
        split at hstep
        next =>
          cases hstep
          exact h.release hok hpc (Nat.not_lt.mp hk) _ _
        next => cases hstep

theorem Effects.setWaterMark (h : s.Effects) (count : BitVec 32) :
    (s.setWaterMark count).Effects := by
  obtain ⟨watermark, hs⟩ := setWaterMark_eq s count
  rw [hs]
  exact ⟨h.legal, h.returns⟩

end Steps

/-! ## Every run -/

section Runs

variable {order : ℕ} {slots : ℕ → α}

omit [DecidableEq ι] in
theorem ok_init (horder : order < 32) : (init order slots : RingThreads ι α).Ok where
  order := horder
  prodHead := rfl
  prodTail := rfl
  consHead := rfl
  consTail := rfl
  consLe := le_rfl
  takenLe := le_rfl
  prodLe := le_rfl
  room := Nat.lt_of_lt_of_le (RteRing.size_pos _) (Nat.le_add_left _ _)
  stored _ _ hlt := absurd hlt (Nat.not_lt_zero _)
  producers := .none 0
  consumers := .none 0
  threads _ := trivial
  producerAlone := nofun
  consumerAlone := nofun

theorem effects_init : (init order slots : RingThreads ι α).Effects where
  legal := ⟨.empty, .nil, rfl⟩
  returns _ := rfl

theorem ok_of_reachable (horder : order < 32) {s : RingThreads ι α}
    (hreach : (machine ι order slots).ReachableWhere Guarded s) : s.Ok ∧ s.Effects := by
  induction hreach with
  | init => exact ⟨ok_init horder, effects_init⟩
  | @step _ _ a _ hguard hstep ih =>
      obtain ⟨hok, heffects⟩ := ih
      cases a with
      | call t c => exact ⟨hok.call hguard hstep, heffects.call hstep⟩
      | advance t => exact ⟨hok.advance hguard hstep, heffects.advance hok hguard hstep⟩
      | setWaterMark count =>
          cases hstep
          exact ⟨hok.setWaterMark count, heffects.setWaterMark count⟩

omit [DecidableEq ι] in
theorem Ok.length_contents {s : RingThreads ι α} : s.contents.length = s.prodPos - s.takenPos := by
  rw [contents, List.length_map, List.length_range]

omit [DecidableEq ι] in
/-- What `rte_ring_count`, `rte_ring_free_count`, `rte_ring_full` and `rte_ring_empty` tell while
threads are at work: an object counts from when it is published until its slot is released. -/
theorem Ok.counts {s : RingThreads ι α} (h : s.Ok) :
    s.ring.rteRingCount.toNat = s.prodPos - s.consPos ∧
      s.ring.rteRingFreeCount.toNat = s.ring.size - 1 - (s.prodPos - s.consPos) ∧
      (s.ring.rteRingFull = true ↔ s.prodPos - s.consPos = s.ring.size - 1) ∧
      (s.ring.rteRingEmpty = true ↔ s.prodPos = s.consPos) := by
  have hroom := h.room
  have hconsLe := h.consLe
  have htakenLe := h.takenLe
  have hprodLe := h.prodLe
  have hpos := s.ring.size_pos
  have hsize : s.ring.size < 2 ^ 32 := Nat.pow_lt_pow_right (by decide) h.order
  have hused : (s.ring.prodTail - s.ring.consTail).toNat = s.prodPos - s.consPos := by
    rw [h.prodTail, h.consTail]
    exact toNat_ofNat_sub_ofNat (by omega) (by omega)
  have hand : ∀ x : BitVec 32, (x &&& s.ring.mask).toNat = x.toNat % s.ring.size := fun x => by
    rw [BitVec.toNat_and, RteRing.toNat_mask h.order, RteRing.size, Nat.and_two_pow_sub_one_eq_mod]
  have hfree : s.ring.rteRingFreeCount.toNat = s.ring.size - 1 - (s.prodPos - s.consPos) := by
    -- the difference is counted down from the end of the counter, a multiple of the size
    obtain ⟨k, hk⟩ : s.ring.size ∣ 2 ^ 32 := Nat.pow_dvd_pow 2 h.order.le
    obtain ⟨m, rfl⟩ : ∃ m, k = m + 1 := ⟨k - 1, by
      have hk0 : k ≠ 0 := by
        rintro rfl
        rw [Nat.mul_zero] at hk
        exact absurd hk (by decide)
      omega⟩
    have hback : (s.ring.consTail - s.ring.prodTail - 1).toNat =
        2 ^ 32 - 1 - (s.prodPos - s.consPos) := by
      rw [BitVec.toNat_sub] at hused
      rw [BitVec.toNat_sub, BitVec.toNat_sub]
      have hone : (1 : BitVec 32).toNat = 1 := rfl
      omega
    rw [RteRing.rteRingFreeCount, hand, hback, hk, Nat.mul_succ,
      show s.ring.size * m + s.ring.size - 1 - (s.prodPos - s.consPos) =
        s.ring.size - 1 - (s.prodPos - s.consPos) + s.ring.size * m by omega,
      Nat.add_mul_mod_self_left]
    exact Nat.mod_eq_of_lt (by omega)
  refine ⟨?_, hfree, ?_, ?_⟩
  · rw [RteRing.rteRingCount, hand, hused]
    exact Nat.mod_eq_of_lt (by omega)
  · have hzero : s.ring.rteRingFull = true ↔ s.ring.rteRingFreeCount.toNat = 0 :=
      beq_iff_eq.trans BitVec.toNat_eq
    rw [hzero, hfree]
    omega
  · rw [RteRing.rteRingEmpty, beq_iff_eq, h.consTail, h.prodTail]
    exact ⟨fun heq => (ofNat_inj_of_window (by omega) (by omega) heq).symm, fun heq => by rw [heq]⟩

/-- The ring as a queue. -/
def Ok.queue {s : RingThreads ι α} (h : s.Ok) : Ring α (s.ring.size - 1) where
  items := s.contents
  bound := by
    have hroom := h.room
    have hconsLe := h.consLe
    have hprodLe := h.prodLe
    rw [Ok.length_contents]
    omega

/-- **One queue.**  For any number of threads, whatever they call and whenever each of them goes
on: the operations take effect as on a queue that holds what is in the slots; every thread has got
back what its operations did there, but for objects it took and is still copying; and all that was
ever enqueued has come out in order, once, or is in the slots. -/
theorem ring_linearizable (horder : order < 32) {s : RingThreads ι α}
    (hreach : (machine ι order slots).ReachableWhere Guarded s) :
    (∃ q : Ring α (s.ring.size - 1), Legal _ s.effects q ∧ q.items = s.contents) ∧
      (∀ t, s.effects.filter (fun op => decide (op.thread = t)) =
        s.returned.filter (fun op => decide (op.thread = t)) ++ pending s.log t (s.pc t)) ∧
      takenBy s.effects ++ s.contents = putBy s.effects := by
  obtain ⟨hok, heffects⟩ := ok_of_reachable horder hreach
  obtain ⟨q, hlegal, hitems⟩ := heffects.legal
  rw [← hok.contents_eq] at hitems
  refine ⟨⟨q, hlegal, hitems⟩, heffects.returns, ?_⟩
  rw [← hitems]
  exact hlegal.conserved

/-- Two producers, the second at its tail before the first. -/
def crossing : List (RingAct Bool ℕ) :=
  [.call false (.enqueue [7, 8] true false), .advance false, .advance false, .advance false,
    .advance false, .call true (.enqueue [9] true false), .advance true, .advance true,
    .advance true, .advance true]

/-- Both go on, and one of them dequeues. -/
def crossed : List (RingAct Bool ℕ) :=
  crossing ++ [.advance false, .advance false, .advance true,
    .call false (.dequeue 2 false false), .advance false, .advance false, .advance false,
    .advance false]

theorem ring_linearizable_crossed :
    ∃ s : RingThreads Bool ℕ, (machine Bool 2 fun _ => 0).run crossed = some s ∧
      s.effects = [.enqueue false [7, 8], .enqueue true [9], .dequeue false [7, 8]] ∧
      s.returned = [.enqueue false [7, 8], .enqueue true [9]] ∧
      takenBy s.effects ++ s.contents = putBy s.effects := by
  have hrun : (((machine Bool 2 fun _ => 0).restrict Guarded).run crossed).map
      (fun s => (s.effects, s.returned)) =
        some ([.enqueue false [7, 8], .enqueue true [9], .dequeue false [7, 8]],
          [.enqueue false [7, 8], .enqueue true [9]]) := by decide +kernel
  obtain ⟨s, hs, hview⟩ := Option.map_eq_some_iff.mp hrun
  obtain ⟨heffects, hreturned⟩ := Prod.mk.inj hview
  exact ⟨s, Machine.runFrom_of_restrict _ _ hs, heffects, hreturned,
    (ring_linearizable (by decide) (Machine.reachableWhere_of_run _ hs)).2.2⟩

/-- A producer that is next goes on. -/
theorem Ok.advance_producer {s : RingThreads ι α} (h : s.Ok) {t : ι} {objs : List α}
    {fixed single : Bool} {head free : BitVec 32} {n pos k : ℕ}
    (hpc : s.pc t = .enqStore objs fixed single head free n pos k)
    (hnext : k < n ∨ single = true ∨ pos = s.prodPos) : (s.advance t).isSome := by
  have hthread := h.threads t
  rw [hpc] at hthread
  have hstoring : Storing s.ring.size s.ring.slots s.log s.prodPos objs single head n pos k :=
    hthread
  have hptrs := RteRing.ptrs_getElem? h.order pos hstoring.fits.le k
  rw [← hstoring.reads] at hptrs
  rw [RingThreads.advance, hpc]
  dsimp only
  rw [hptrs]
  by_cases hk : k < n
  · rw [if_pos hk]
    dsimp only
    rw [List.getElem?_eq_getElem (hk.trans_le hstoring.count)]
    rfl
  · rw [if_neg hk]
    dsimp only
    have htail : single = true ∨ s.ring.prodTail = head := by
      rcases hnext.resolve_left hk with hsingle | hpos
      · exact .inl hsingle
      · rw [h.prodTail, hstoring.reads, hpos]
        exact .inr rfl
    rw [if_pos htail]
    rfl

/-- A consumer that is next goes on. -/
theorem Ok.advance_consumer {s : RingThreads ι α} (h : s.Ok) {t : ι} {fixed single : Bool}
    {head : BitVec 32} {n pos : ℕ} {got : List α}
    (hpc : s.pc t = .deqLoad fixed single head n pos got)
    (hnext : got.length < n ∨ single = true ∨ pos = s.consPos) : (s.advance t).isSome := by
  have hthread := h.threads t
  rw [hpc] at hthread
  have hloading : Loading s.ring.size s.log s.consPos s.takenPos single head n pos got := hthread
  have hptrs := RteRing.ptrs_getElem? h.order pos hloading.fits.le got.length
  rw [← hloading.reads] at hptrs
  rw [RingThreads.advance, hpc]
  dsimp only
  rw [hptrs]
  by_cases hk : got.length < n
  · rw [if_pos hk]
    rfl
  · rw [if_neg hk]
    dsimp only
    have htail : single = true ∨ s.ring.consTail = head := by
      rcases hnext.resolve_left hk with hsingle | hpos
      · exact .inl hsingle
      · rw [h.consTail, hloading.reads, hpos]
        exact .inr rfl
    rw [if_pos htail]
    rfl

/-- What a thread that spins on a tail waits for: the thread whose range begins where the tail
stands, on the same side and in front of its own. -/
def WaitsFor (s : RingThreads ι α) (t u : ι) : Prop :=
  match s.pc t, s.pc u with
  | .enqStore _ _ _ _ _ _ pos _, .enqStore _ _ _ _ _ _ pos' _ => pos' = s.prodPos ∧ pos' < pos
  | .deqLoad _ _ _ _ pos _, .deqLoad _ _ _ _ pos' _ => pos' = s.consPos ∧ pos' < pos
  | _, _ => False

/-- A producer that spins waits for the one whose range begins at the tail. -/
theorem Ok.producer_waits {s : RingThreads ι α} (h : s.Ok) {t : ι} {objs : List α}
    {fixed single : Bool} {head free : BitVec 32} {n pos k : ℕ}
    (hpc : s.pc t = .enqStore objs fixed single head free n pos k) (hpos : pos ≠ s.prodPos) :
    ∃ u, s.pc u ≠ .idle ∧ s.WaitsFor t u ∧ (s.advance u).isSome := by
  have hthread := h.threads t
  rw [hpc] at hthread
  have hstoring : Storing s.ring.size s.ring.slots s.log s.prodPos objs single head n pos k :=
    hthread
  have hlo := hstoring.lo
  have hhi := hstoring.hi
  obtain ⟨u, m, hu⟩ := h.producers.exists_first (by omega)
  cases hpcu : s.pc u with
  | idle | enqHead | enqTail | enqCas | deqHead | deqTail | deqCas | deqLoad =>
      rw [hpcu] at hu
      cases hu
  | enqStore objs' fixed' single' head' free' n' pos' k' =>
      rw [hpcu, RingPc.producerOut] at hu
      split at hu
      next =>
        cases hu
        refine ⟨u, by rw [hpcu]; simp, ?_, h.advance_producer hpcu (.inr (.inr rfl))⟩
        rw [WaitsFor, hpc, hpcu]
        exact ⟨rfl, by omega⟩
      next => cases hu

/-- A consumer that spins waits for the one whose range begins at the tail. -/
theorem Ok.consumer_waits {s : RingThreads ι α} (h : s.Ok) {t : ι} {fixed single : Bool}
    {head : BitVec 32} {n pos : ℕ} {got : List α}
    (hpc : s.pc t = .deqLoad fixed single head n pos got) (hmulti : single = false)
    (hpos : pos ≠ s.consPos) :
    ∃ u, s.pc u ≠ .idle ∧ s.WaitsFor t u ∧ (s.advance u).isSome := by
  have hthread := h.threads t
  rw [hpc] at hthread
  have hloading : Loading s.ring.size s.log s.consPos s.takenPos single head n pos got := hthread
  have hlo := hloading.lo
  have hhi := hloading.hi
  have hsome := hloading.some hmulti
  obtain ⟨u, m, hu⟩ := h.consumers.exists_first (by omega)
  cases hpcu : s.pc u with
  | idle | enqHead | enqTail | enqCas | deqHead | deqTail | deqCas | enqStore =>
      rw [hpcu] at hu
      cases hu
  | deqLoad fixed' single' head' n' pos' got' =>
      rw [hpcu, RingPc.consumerOut] at hu
      split at hu
      next =>
        cases hu
        refine ⟨u, by rw [hpcu]; simp, ?_, h.advance_consumer hpcu (.inr (.inr rfl))⟩
        rw [WaitsFor, hpc, hpcu]
        exact ⟨rfl, by omega⟩
      next => cases hu

/-- **No deadlock.**  A thread that is in a call can go on, or it spins on a tail, and then the
thread that it waits for can go on. -/
theorem some_thread_advances (horder : order < 32) {s : RingThreads ι α}
    (hreach : (machine ι order slots).ReachableWhere Guarded s) {t : ι} (hbusy : s.pc t ≠ .idle) :
    (s.advance t).isSome ∨ ∃ u, s.pc u ≠ .idle ∧ s.WaitsFor t u ∧ (s.advance u).isSome := by
  obtain ⟨hok, -⟩ := ok_of_reachable horder hreach
  cases hpc : s.pc t with
  | idle => exact absurd hpc hbusy
  | enqHead | deqHead => exact .inl (by rw [RingThreads.advance, hpc]; rfl)
  | enqTail | deqTail =>
      left
      rw [RingThreads.advance, hpc]
      dsimp only
      split
      · split
        · rfl
        · split <;> rfl
      · rfl
  | enqCas | deqCas =>
      left
      rw [RingThreads.advance, hpc]
      dsimp only
      split <;> rfl
  | enqStore objs fixed single head free n pos k =>
      by_cases hnext : k < n ∨ single = true ∨ pos = s.prodPos
      · exact .inl (hok.advance_producer hpc hnext)
      · simp only [not_or] at hnext
        exact .inr (hok.producer_waits hpc hnext.2.2)
  | deqLoad fixed single head n pos got =>
      by_cases hnext : got.length < n ∨ single = true ∨ pos = s.consPos
      · exact .inl (hok.advance_consumer hpc hnext)
      · simp only [not_or, Bool.not_eq_true] at hnext
        exact .inr (hok.consumer_waits hpc hnext.2.1 hnext.2.2)

/-- The second producer waits for the first, which goes on. -/
theorem some_thread_advances_crossing :
    ∃ s : RingThreads Bool ℕ, (machine Bool 2 fun _ => 0).run crossing = some s ∧
      (s.advance true).isNone ∧ ∃ u, s.WaitsFor true u ∧ (s.advance u).isSome := by
  have hrun : (((machine Bool 2 fun _ => 0).restrict Guarded).run crossing).map
      (fun s => ((s.advance true).isNone, decide (s.pc true ≠ .idle))) = some (true, true) := by
    decide +kernel
  obtain ⟨s, hs, hview⟩ := Option.map_eq_some_iff.mp hrun
  obtain ⟨hwaits, hbusy⟩ := Prod.mk.inj hview
  refine ⟨s, Machine.runFrom_of_restrict _ _ hs, hwaits, ?_⟩
  rcases some_thread_advances (by decide) (Machine.reachableWhere_of_run _ hs)
    (of_decide_eq_true hbusy) with hadvances | ⟨u, -, hfor, hu⟩
  · rw [Option.isNone_iff_eq_none.mp hwaits] at hadvances
    cases hadvances
  · exact ⟨u, hfor, hu⟩

end Runs

end RingThreads

end IpAugenblick
