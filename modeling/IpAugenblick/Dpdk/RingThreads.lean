/-
# Threads on a ring

Whatever the scheduler does, what is enqueued comes out once and in order: the operations take
effect one at a time, each between its call and its return, as on a queue that nobody shares.  A
producer takes effect when it moves `prod.tail`, a consumer when it moves `cons.head`.
-/

import IpAugenblick.Dpdk.RteRing
import Mathlib.Data.Fintype.Defs

namespace IpAugenblick

open Lib

universe u v

namespace RteRing

variable {α : Type v} {r : RteRing α}

theorem size_pos (r : RteRing α) : 0 < r.size := Nat.two_pow_pos r.order

theorem toNat_mask (h : r.order < 32) : r.mask.toNat = r.size - 1 := by
  have hlt : r.size < 2 ^ 32 := Nat.pow_lt_pow_right (by decide) h
  rw [mask, BitVec.toNat_ofNat]
  exact Nat.mod_eq_of_lt (Nat.lt_of_le_of_lt (Nat.sub_le _ _) hlt)

/-- Four at a time is one at a time. -/
theorem flatMap_range_four {β : Type*} (f : ℕ → β) (m : ℕ) :
    ((List.range m).flatMap fun j => [f (4 * j), f (4 * j + 1), f (4 * j + 2), f (4 * j + 3)]) =
      (List.range (4 * m)).map f := by
  induction m with
  | zero => rfl
  | succ m ih =>
      rw [List.range_succ, List.flatMap_append, ih, Nat.mul_succ, List.range_add, List.map_append]
      rfl

theorem unrolled_eq (idx n : ℕ) :
    unrolled idx n = (List.range n).map fun i => (idx + i, i) := by
  have hloop := flatMap_range_four (fun i => (idx + i, i)) (n / 4)
  have hswitch : ((List.range (n % 4)).map fun j => (idx + 4 * (n / 4) + j, 4 * (n / 4) + j)) =
      ((List.range (n % 4)).map fun j => 4 * (n / 4) + j).map fun i => (idx + i, i) := by
    rw [List.map_map]
    refine List.map_congr_left fun j _ => ?_
    rw [Function.comp_apply, Nat.add_assoc]
  conv_rhs => rw [← Nat.div_add_mod n 4, List.range_add, List.map_append]
  rw [unrolled, hswitch, ← hloop]
  simp only [Nat.add_assoc]

theorem wrapped_eq {idx n size : ℕ} (hidx : idx < size) (hn : n ≤ size) (hwrap : size ≤ idx + n) :
    wrapped idx n size = (List.range n).map fun i => ((idx + i) % size, i) := by
  have hsplit : n = (size - idx) + (n - (size - idx)) := by omega
  conv_rhs => rw [hsplit, List.range_add, List.map_append, List.map_map]
  rw [wrapped]
  congr 1
  · refine List.map_congr_left fun i hi => ?_
    rw [List.mem_range] at hi
    rw [Nat.mod_eq_of_lt (by omega)]
  · refine List.map_congr_left fun i hi => ?_
    rw [List.mem_range] at hi
    have hsum : idx + (size - idx + i) = size + i := by omega
    rw [Function.comp_apply, hsum, Nat.add_mod_left, Nat.mod_eq_of_lt (by omega)]

/-- **The copies.**  Both forms of the macro go to the slots behind the head, one after the other
around the ring. -/
theorem ptrs_eq (h : r.order < 32) (pos : ℕ) {n : ℕ} (hn : n ≤ r.size) :
    r.ptrs (BitVec.ofNat 32 pos) n = (List.range n).map fun i => ((pos + i) % r.size, i) := by
  have hidx : (BitVec.ofNat 32 pos &&& r.mask).toNat = pos % r.size := by
    rw [BitVec.toNat_and, toNat_mask h, size, Nat.and_two_pow_sub_one_eq_mod, BitVec.toNat_ofNat]
    exact Nat.mod_mod_of_dvd pos (Nat.pow_dvd_pow 2 h.le)
  have hlt : pos % r.size < r.size := Nat.mod_lt pos r.size_pos
  have hmod : ∀ i, (pos % r.size + i) % r.size = (pos + i) % r.size := fun i =>
    Nat.mod_add_mod pos r.size i
  unfold ptrs
  dsimp only
  rw [hidx]
  split
  next hstraight =>
    rw [unrolled_eq]
    refine List.map_congr_left fun i hi => ?_
    rw [List.mem_range] at hi
    rw [← hmod, Nat.mod_eq_of_lt (a := pos % r.size + i) (by omega)]
  next hwrap =>
    rw [wrapped_eq hlt hn (Nat.not_lt.mp hwrap)]
    simp only [hmod]

theorem ptrs_getElem? (h : r.order < 32) (pos : ℕ) {n : ℕ} (hn : n ≤ r.size) (k : ℕ) :
    (r.ptrs (BitVec.ofNat 32 pos) n)[k]? =
      if k < n then some ((pos + k) % r.size, k) else none := by
  rw [ptrs_eq h pos hn, List.getElem?_map]
  split
  next hlt => rw [List.getElem?_range hlt, Option.map_some]
  next hge => rw [List.getElem?_eq_none (by rw [List.length_range]; omega), Option.map_none]

end RteRing

/-! ## What the threads rely on -/

namespace RingPc

variable {α : Type v}

/-- A thread in an enqueue, and whether it is to be the only one. -/
def producer : RingPc α → Option Bool
  | .enqHead _ _ single | .enqTail _ _ single _ _ | .enqCas _ _ single _ _ _ _
  | .enqStore _ _ single _ _ _ _ _ => some single
  | _ => none

/-- A thread in a dequeue, and whether it is to be the only one. -/
def consumer : RingPc α → Option Bool
  | .deqHead _ _ single | .deqTail _ _ single _ _ | .deqCas _ _ single _ _ _
  | .deqLoad _ single _ _ _ _ => some single
  | _ => none

/-- The range that a producer has taken. -/
def producerOut : RingPc α → Option (ℕ × ℕ)
  | .enqStore _ _ _ _ _ n pos _ => if 0 < n then some (pos, n) else none
  | _ => none

/-- The range that a consumer has taken. -/
def consumerOut : RingPc α → Option (ℕ × ℕ)
  | .deqLoad _ _ _ n pos _ => if 0 < n then some (pos, n) else none
  | _ => none

end RingPc

def Alone {ι : Type u} (role : ι → Option Bool) : Prop :=
  ∀ t u b c, t ≠ u → role t = some b → role u = some c → b = false

section Alone

variable {ι : Type u} [DecidableEq ι] {role : ι → Option Bool} {t : ι}

theorem Alone.leave (h : Alone role) : Alone (Function.update role t none) := by
  intro v w b c hvw hv hw
  rw [Function.update_apply] at hv hw
  split at hv
  · cases hv
  · split at hw
    · cases hw
    · exact h v w b c hvw hv hw

theorem Alone.enter (h : Alone role) {single : Bool}
    (hother : ∀ u b, u ≠ t → role u = some b → single = false ∧ b = false) :
    Alone (Function.update role t (some single)) := by
  intro v w b c hvw hv hw
  rw [Function.update_apply] at hv hw
  split at hv
  next hvt =>
    cases hv
    subst hvt
    rw [if_neg hvw.symm] at hw
    exact (hother w c hvw.symm hw).1
  next hvt =>
    split at hw
    next => exact (hother v b hvt hv).2
    next => exact h v w b c hvw hv hw

end Alone

namespace RingThreads

variable {ι : Type u} {α : Type v} [DecidableEq ι]

/-- What callers promise, and the scheduler: a function for a single producer or consumer runs
alone on its side, no thread sleeps for 2^32 objects before its compare and set, and the water mark
is set while nobody enqueues. -/
def Guarded (s : RingThreads ι α) : RingAct ι α → Prop
  | .call t (.enqueue _ _ single) =>
      ∀ u b, u ≠ t → (s.pc u).producer = some b → single = false ∧ b = false
  | .call t (.dequeue _ _ single) =>
      ∀ u b, u ≠ t → (s.pc u).consumer = some b → single = false ∧ b = false
  | .advance t =>
      match s.pc t with
      | .enqCas _ _ _ _ _ _ pos => s.log.length < pos + 2 ^ 32
      | .deqCas _ _ _ _ _ pos => s.takenPos < pos + 2 ^ 32
      | _ => True
  | .setWaterMark _ => ∀ u, (s.pc u).producer = none

instance [Fintype ι] (s : RingThreads ι α) : (a : RingAct ι α) →
    Decidable (s.Guarded a)
  | .call t (.enqueue _ _ single) => inferInstanceAs
      (Decidable (∀ u b, u ≠ t → (s.pc u).producer = some b → single = false ∧ b = false))
  | .call t (.dequeue _ _ single) => inferInstanceAs
      (Decidable (∀ u b, u ≠ t → (s.pc u).consumer = some b → single = false ∧ b = false))
  | .advance t =>
      match hpc : s.pc t with
      | .enqCas _ _ _ _ _ _ pos =>
          decidable_of_iff (s.log.length < pos + 2 ^ 32) (by simp only [Guarded, hpc])
      | .deqCas _ _ _ _ _ pos =>
          decidable_of_iff (s.takenPos < pos + 2 ^ 32) (by simp only [Guarded, hpc])
      | .idle | .enqHead .. | .enqTail .. | .enqStore .. | .deqHead .. | .deqTail ..
      | .deqLoad .. =>
          .isTrue (by simp only [Guarded, hpc])
  | .setWaterMark _ => inferInstanceAs (Decidable (∀ u, (s.pc u).producer = none))

/-- A thread has read the head of its side when it had come to `pos`; now it is at `top`. -/
structure ReadHead (top : ℕ) (single : Bool) (head : BitVec 32) (pos : ℕ) : Prop where
  reads : head = BitVec.ofNat 32 pos
  le : pos ≤ top
  alone : single = true → pos = top

/-- The head of a side that others move: only one that is alone relies on it. -/
theorem ReadHead.grow {top top' : ℕ} {single : Bool} {head : BitVec 32} {pos : ℕ}
    (h : ReadHead top single head pos) (hle : top ≤ top') (hshared : single = false) :
    ReadHead top' single head pos where
  reads := h.reads
  le := h.le.trans hle
  alone hsingle := by
    rw [hshared] at hsingle
    cases hsingle

/-- A producer that has stored `k` of the `n` objects that it has room for. -/
structure Storing (size : ℕ) (slots : ℕ → α) (log : List α) (prodPos : ℕ) (objs : List α)
    (single : Bool) (head : BitVec 32) (n pos k : ℕ) : Prop where
  reads : head = BitVec.ofNat 32 pos
  count : n ≤ objs.length
  fits : n < size
  some : single = false → 0 < n
  le : k ≤ n
  alone : single = true → pos = prodPos
  lo : prodPos ≤ pos
  hi : pos + n ≤ log.length
  logged : ∀ i < n, log[pos + i]? = objs[i]?
  stored : ∀ i < k, log[pos + i]? = Option.some (slots ((pos + i) % size))

/-- A consumer that has loaded some of the `n` objects that it has taken. -/
structure Loading (size : ℕ) (log : List α) (consPos takenPos : ℕ) (single : Bool)
    (head : BitVec 32) (n pos : ℕ) (got : List α) : Prop where
  reads : head = BitVec.ofNat 32 pos
  fits : n < size
  some : single = false → 0 < n
  le : got.length ≤ n
  alone : single = true → pos = consPos
  lo : consPos ≤ pos
  hi : pos + n ≤ takenPos
  got : got = (log.drop pos).take got.length

/-- What a thread relies on. -/
def ThreadOk (s : RingThreads ι α) : RingPc α → Prop
  | .idle => True
  | .enqHead objs _ single => single = false → objs ≠ []
  | .enqTail objs _ single head pos =>
      (single = false → objs ≠ []) ∧ ReadHead s.log.length single head pos
  | .enqCas objs _ single head _ n pos =>
      n ≤ objs.length ∧ (single = false → 0 < n) ∧ ReadHead s.log.length single head pos ∧
        (pos = s.log.length → pos + n < s.consPos + s.ring.size)
  | .enqStore objs _ single head _ n pos k =>
      Storing s.ring.size s.ring.slots s.log s.prodPos objs single head n pos k
  | .deqHead max _ single => single = false → 0 < max
  | .deqTail max _ single head pos =>
      (single = false → 0 < max) ∧ ReadHead s.takenPos single head pos
  | .deqCas max _ single head n pos =>
      n ≤ max ∧ (single = false → 0 < n) ∧ ReadHead s.takenPos single head pos ∧
        (pos = s.takenPos → pos + n ≤ s.prodPos)
  | .deqLoad _ single head n pos got =>
      Loading s.ring.size s.log s.consPos s.takenPos single head n pos got

/-- The indices, the slots and the threads agree.  The 32-bit indices are remainders of positions
in `log`, the list of all objects that were ever reserved, and the threads between a head and its
tail hold consecutive ranges of these positions. -/
structure Ok (s : RingThreads ι α) : Prop where
  order : s.ring.order < 32
  prodHead : s.ring.prodHead = BitVec.ofNat 32 s.log.length
  prodTail : s.ring.prodTail = BitVec.ofNat 32 s.prodPos
  consHead : s.ring.consHead = BitVec.ofNat 32 s.takenPos
  consTail : s.ring.consTail = BitVec.ofNat 32 s.consPos
  consLe : s.consPos ≤ s.takenPos
  takenLe : s.takenPos ≤ s.prodPos
  prodLe : s.prodPos ≤ s.log.length
  room : s.log.length < s.consPos + s.ring.size
  stored : ∀ p, s.consPos ≤ p → p < s.prodPos →
    s.log[p]? = some (s.ring.slots (p % s.ring.size))
  producers : Tickets s.prodPos s.log.length fun t => (s.pc t).producerOut
  consumers : Tickets s.consPos s.takenPos fun t => (s.pc t).consumerOut
  threads : ∀ t, s.ThreadOk (s.pc t)
  producerAlone : Alone fun t => (s.pc t).producer
  consumerAlone : Alone fun t => (s.pc t).consumer

section Steps

variable {s : RingThreads ι α} {t : ι}

omit [DecidableEq ι] in
/-- A producer that is alone is the only one with a ticket. -/
theorem Ok.producer_ne (h : s.Ok) {u : ι} {b c : Bool} (hne : u ≠ t)
    (ht : (s.pc t).producer = some b) (hu : (s.pc u).producer = some c) : b = false ∧ c = false :=
  ⟨h.producerAlone t u b c hne.symm ht hu, h.producerAlone u t c b hne hu ht⟩

omit [DecidableEq ι] in
theorem Ok.consumer_ne (h : s.Ok) {u : ι} {b c : Bool} (hne : u ≠ t)
    (ht : (s.pc t).consumer = some b) (hu : (s.pc u).consumer = some c) : b = false ∧ c = false :=
  ⟨h.consumerAlone t u b c hne.symm ht hu, h.consumerAlone u t c b hne hu ht⟩

omit [DecidableEq ι] in
/-- When a producer is alone and has no ticket, nobody has. -/
theorem Ok.prodPos_eq_of_alone (h : s.Ok) (ht : (s.pc t).producer = some true)
    (hout : (s.pc t).producerOut = none) : s.prodPos = s.log.length := by
  refine Nat.le_antisymm h.prodLe (Nat.le_of_not_lt fun hlt => ?_)
  obtain ⟨u, n, hu⟩ := h.producers.exists_first hlt
  have hne : u ≠ t := by
    rintro rfl
    rw [hout] at hu
    cases hu
  have hrole : ∃ c, (s.pc u).producer = some c := by
    generalize s.pc u = pc at hu
    cases pc <;> first | exact ⟨_, rfl⟩ | cases hu
  obtain ⟨c, hc⟩ := hrole
  exact absurd (h.producer_ne hne ht hc).1 (by decide)

omit [DecidableEq ι] in
/-- The same of consumers. -/
theorem Ok.consPos_eq_of_alone (h : s.Ok) (ht : (s.pc t).consumer = some true)
    (hout : (s.pc t).consumerOut = none) : s.consPos = s.takenPos := by
  refine Nat.le_antisymm h.consLe (Nat.le_of_not_lt fun hlt => ?_)
  obtain ⟨u, n, hu⟩ := h.consumers.exists_first hlt
  have hne : u ≠ t := by
    rintro rfl
    rw [hout] at hu
    cases hu
  have hrole : ∃ c, (s.pc u).consumer = some c := by
    generalize s.pc u = pc at hu
    cases pc <;> first | exact ⟨_, rfl⟩ | cases hu
  obtain ⟨c, hc⟩ := hrole
  exact absurd (h.consumer_ne hne ht hc).1 (by decide)

/-- What a thread has that goes on at another place. -/
theorem update_comp {β : Type*} (f : RingPc α → β) (pc : ι → RingPc α) (t : ι) (next : RingPc α) :
    (fun u => f (Function.update pc t next u)) =
      Function.update (fun u => f (pc u)) t (f next) :=
  funext fun u => Function.apply_update (fun _ => f) pc t next u

/-- What a thread has that keeps it. -/
theorem update_same {β : Type*} (f : RingPc α → β) (pc : ι → RingPc α) {t : ι} {next : RingPc α}
    (h : f next = f (pc t)) : (fun u => f (Function.update pc t next u)) = fun u => f (pc u) := by
  rw [update_comp, h, Function.update_eq_self]

/-- The thread that moves and the others. -/
theorem threads_update {s' : RingThreads ι α} (pc : ι → RingPc α) {next : RingPc α}
    (hpc : s'.pc = Function.update pc t next) (hthis : s'.ThreadOk next)
    (hothers : ∀ u, u ≠ t → s'.ThreadOk (pc u)) : ∀ u, s'.ThreadOk (s'.pc u) := by
  intro u
  rw [hpc]
  rcases eq_or_ne u t with rfl | hne
  · rwa [Function.update_self]
  · rw [Function.update_of_ne hne]
    exact hothers u hne

/-- A step that changes nothing but where the thread is. -/
theorem Ok.goto (h : s.Ok) {next : RingPc α} (hthis : s.ThreadOk next)
    (hproducer : next.producer = (s.pc t).producer)
    (hconsumer : next.consumer = (s.pc t).consumer)
    (hproducerOut : next.producerOut = (s.pc t).producerOut)
    (hconsumerOut : next.consumerOut = (s.pc t).consumerOut) : (s.goto t next).Ok where
  order := h.order
  prodHead := h.prodHead
  prodTail := h.prodTail
  consHead := h.consHead
  consTail := h.consTail
  consLe := h.consLe
  takenLe := h.takenLe
  prodLe := h.prodLe
  room := h.room
  stored := h.stored
  producers := by
    rw [RingThreads.goto, update_same _ _ hproducerOut]
    exact h.producers
  consumers := by
    rw [RingThreads.goto, update_same _ _ hconsumerOut]
    exact h.consumers
  threads := threads_update s.pc rfl hthis fun u _ => h.threads u
  producerAlone := by
    rw [RingThreads.goto, update_same _ _ hproducer]
    exact h.producerAlone
  consumerAlone := by
    rw [RingThreads.goto, update_same _ _ hconsumer]
    exact h.consumerAlone

/-- A call begins. -/
theorem Ok.enter (h : s.Ok) {next : RingPc α} (hidle : s.pc t = .idle)
    (hthis : s.ThreadOk next)
    (hproducer : Alone (Function.update (fun u => (s.pc u).producer) t next.producer))
    (hconsumer : Alone (Function.update (fun u => (s.pc u).consumer) t next.consumer))
    (hproducerOut : next.producerOut = none) (hconsumerOut : next.consumerOut = none) :
    (s.goto t next).Ok where
  order := h.order
  prodHead := h.prodHead
  prodTail := h.prodTail
  consHead := h.consHead
  consTail := h.consTail
  consLe := h.consLe
  takenLe := h.takenLe
  prodLe := h.prodLe
  room := h.room
  stored := h.stored
  producers := by
    rw [RingThreads.goto, update_same _ _ (by rw [hproducerOut, hidle]; rfl)]
    exact h.producers
  consumers := by
    rw [RingThreads.goto, update_same _ _ (by rw [hconsumerOut, hidle]; rfl)]
    exact h.consumers
  threads := threads_update s.pc rfl hthis fun u _ => h.threads u
  producerAlone := by
    rw [RingThreads.goto, update_comp]
    exact hproducer
  consumerAlone := by
    rw [RingThreads.goto, update_comp]
    exact hconsumer

/-- A call returns with nothing taken. -/
theorem Ok.leave (h : s.Ok) (hproducerOut : (s.pc t).producerOut = none)
    (hconsumerOut : (s.pc t).consumerOut = none) (code : Int) (objs : List α) :
    (s.leave t code objs).Ok where
  order := h.order
  prodHead := h.prodHead
  prodTail := h.prodTail
  consHead := h.consHead
  consTail := h.consTail
  consLe := h.consLe
  takenLe := h.takenLe
  prodLe := h.prodLe
  room := h.room
  stored := h.stored
  producers := by
    rw [RingThreads.leave, update_same _ _ (by rw [hproducerOut]; rfl)]
    exact h.producers
  consumers := by
    rw [RingThreads.leave, update_same _ _ (by rw [hconsumerOut]; rfl)]
    exact h.consumers
  threads := threads_update s.pc rfl trivial fun u _ => h.threads u
  producerAlone := by
    rw [RingThreads.leave, update_comp]
    exact h.producerAlone.leave
  consumerAlone := by
    rw [RingThreads.leave, update_comp]
    exact h.consumerAlone.leave

section Enqueue

variable {objs : List α} {fixed single : Bool} {head free : BitVec 32} {n pos k : ℕ}

omit [DecidableEq ι] in
/-- A compare and set that succeeds finds the head where it was. -/
theorem Ok.enqCas_pos (h : s.Ok) (hpc : s.pc t = .enqCas objs fixed single head free n pos)
    (hawake : s.log.length < pos + 2 ^ 32) (hcas : single = true ∨ s.ring.prodHead = head) :
    pos = s.log.length := by
  have hthread := h.threads t
  rw [hpc] at hthread
  obtain ⟨-, -, hread, -⟩ := hthread
  rcases hcas with hsingle | hhead
  · exact hread.alone hsingle
  · rw [h.prodHead, hread.reads] at hhead
    exact ofNat_inj_of_window hread.le hawake hhead.symm

theorem Ok.claim (h : s.Ok) (hpc : s.pc t = .enqCas objs fixed single head free n pos)
    (hpos : pos = s.log.length) :
    (s.claim t (head + BitVec.ofNat 32 n) (objs.take n)
      (.enqStore objs fixed single head free n pos 0)).Ok := by
  have hthread := h.threads t
  rw [hpc] at hthread
  obtain ⟨hcount, hsome, hread, hroom⟩ := hthread
  have hroom := hroom hpos
  have hlen : (s.log ++ objs.take n).length = s.log.length + n := by
    rw [List.length_append, List.length_take, Nat.min_eq_left hcount]
  have hproducer : (s.pc t).producer = some single := by
    rw [hpc]
    rfl
  have hold : ∀ p < s.log.length, (s.log ++ objs.take n)[p]? = s.log[p]? := fun p hp =>
    List.getElem?_append_left hp
  have hconsLe := h.consLe
  have htakenLe := h.takenLe
  have hprodLe := h.prodLe
  refine ⟨h.order, ?_, h.prodTail, h.consHead, h.consTail, hconsLe, htakenLe, ?_, ?_, ?_, ?_, ?_,
    ?_, ?_, ?_⟩
  · show head + BitVec.ofNat 32 n = BitVec.ofNat 32 (s.log ++ objs.take n).length
    rw [hlen, hread.reads, hpos, BitVec.ofNat_add]
  · show s.prodPos ≤ (s.log ++ objs.take n).length
    omega
  · show (s.log ++ objs.take n).length < s.consPos + s.ring.size
    omega
  · intro p hlo hhi
    show (s.log ++ objs.take n)[p]? = _
    have hhi' : p < s.prodPos := hhi
    rw [hold p (by omega)]
    exact h.stored p hlo hhi'
  · show Tickets s.prodPos (s.log ++ objs.take n).length
      fun u => (Function.update s.pc t _ u).producerOut
    rw [hlen]
    rcases Nat.eq_zero_or_pos n with rfl | hn
    · rw [update_same _ _ (by rw [hpc]; rfl)]
      exact h.producers
    · rw [update_comp, RingPc.producerOut, if_pos hn, hpos]
      exact h.producers.draw hprodLe (by rw [hpc]; rfl) hn
  · show Tickets s.consPos s.takenPos fun u => (Function.update s.pc t _ u).consumerOut
    rw [update_same _ _ (by rw [hpc]; rfl)]
    exact h.consumers
  · refine threads_update s.pc rfl ?_ fun u hne => ?_
    · change Storing _ _ (s.log ++ objs.take n) s.prodPos objs single head n pos 0
      refine ⟨hread.reads, hcount, ?_, hsome, Nat.zero_le n, fun hsingle => ?_, by omega,
        by omega, fun i hi => ?_, nofun⟩
      · show n < s.ring.size
        omega
      · rw [hpos]
        exact (h.prodPos_eq_of_alone (by rw [hproducer, hsingle]) (by rw [hpc]; rfl)).symm
      · rw [hpos, List.getElem?_append_right (Nat.le_add_right _ _), Nat.add_sub_cancel_left,
          List.getElem?_take_of_lt hi]
    · have hothers := h.threads u
      have hrole := fun c => h.producer_ne (c := c) hne hproducer
      generalize s.pc u = pc at hothers hrole
      cases pc with
      | idle | enqHead | deqHead | deqTail | deqCas => exact hothers
      | enqTail objs' fixed' single' head' pos' =>
          obtain ⟨hne', hread'⟩ := hothers
          change _ ∧ ReadHead (s.log ++ objs.take n).length _ _ _
          rw [hlen]
          exact ⟨hne', hread'.grow (Nat.le_add_right _ _) (hrole _ rfl).2⟩
      | enqCas objs' fixed' single' head' free' n' pos' =>
          obtain ⟨hcount', hsome', hread', -⟩ := hothers
          have hn := hsome (hrole _ rfl).1
          change _ ∧ _ ∧ ReadHead (s.log ++ objs.take n).length _ _ _ ∧
            (pos' = (s.log ++ objs.take n).length → _)
          rw [hlen]
          refine ⟨hcount', hsome', hread'.grow (Nat.le_add_right _ _) (hrole _ rfl).2,
            fun heq => ?_⟩
          have hle := hread'.le
          omega
      | enqStore objs' fixed' single' head' free' n' pos' k' =>
          have h' : Storing s.ring.size s.ring.slots s.log s.prodPos objs' single' head' n' pos'
            k' := hothers
          have hhi := h'.hi
          have hk := h'.le
          change Storing _ _ (s.log ++ objs.take n) s.prodPos _ _ _ _ _ _
          refine ⟨h'.reads, h'.count, h'.fits, h'.some, h'.le, h'.alone, h'.lo, by omega,
            fun i hi => ?_, fun i hi => ?_⟩
          · rw [hold _ (by omega)]
            exact h'.logged i hi
          · rw [hold _ (by omega)]
            exact h'.stored i hi
      | deqLoad fixed' single' head' n' pos' got' =>
          have h' : Loading s.ring.size s.log s.consPos s.takenPos single' head' n' pos' got' :=
            hothers
          have hhi := h'.hi
          have hle := h'.le
          change Loading _ (s.log ++ objs.take n) _ _ _ _ _ _ _
          refine ⟨h'.reads, h'.fits, h'.some, h'.le, h'.alone, h'.lo, h'.hi, ?_⟩
          rw [List.drop_append_of_le_length (by omega), List.take_append_of_le_length
            (by rw [List.length_drop]; omega)]
          exact h'.got
  · show Alone fun u => (Function.update s.pc t _ u).producer
    rw [update_same _ _ (by rw [hpc]; rfl)]
    exact h.producerAlone
  · show Alone fun u => (Function.update s.pc t _ u).consumer
    rw [update_same _ _ (by rw [hpc]; rfl)]
    exact h.consumerAlone

/-- Different numbers of a window are in different slots. -/
theorem mod_ne_of_window {a b m : ℕ} (hab : a < b) (hb : b < a + m) : a % m ≠ b % m := by
  intro h
  have hdvd : m ∣ b - a := (Nat.modEq_iff_dvd' hab.le).mp h
  have hle := Nat.le_of_dvd (by omega) hdvd
  omega

theorem Ok.store (h : s.Ok) (hpc : s.pc t = .enqStore objs fixed single head free n pos k)
    (hk : k < n) {x : α} (hx : objs[k]? = some x) :
    (s.store t ((pos + k) % s.ring.size) x
      (.enqStore objs fixed single head free n pos (k + 1))).Ok := by
  have hthread := h.threads t
  rw [hpc] at hthread
  have hstoring : Storing s.ring.size s.ring.slots s.log s.prodPos objs single head n pos k :=
    hthread
  have hlo := hstoring.lo
  have hhi := hstoring.hi
  have hroom := h.room
  have hconsLe := h.consLe
  have htakenLe := h.takenLe
  have hout : (s.pc t).producerOut = some (pos, n) := by
    rw [hpc]
    exact if_pos (by omega)
  have hother : ∀ p, s.consPos ≤ p → p < s.log.length → p ≠ pos + k →
      Function.update s.ring.slots ((pos + k) % s.ring.size) x (p % s.ring.size) =
        s.ring.slots (p % s.ring.size) := by
    intro p hlo' hhi' hne
    refine Function.update_of_ne ?_ ..
    rcases Nat.lt_or_gt_of_ne hne with hlt | hgt
    · exact mod_ne_of_window hlt (by omega)
    · exact (mod_ne_of_window hgt (by omega)).symm
  refine ⟨h.order, h.prodHead, h.prodTail, h.consHead, h.consTail, hconsLe, htakenLe, h.prodLe,
    hroom, ?_, ?_, ?_, ?_, ?_, ?_⟩
  · intro p hplo hphi
    have hphi' : p < s.prodPos := hphi
    refine (h.stored p hplo hphi').trans (congrArg some (hother p hplo ?_ ?_).symm)
    · exact hphi'.trans_le h.prodLe
    · omega
  · show Tickets s.prodPos s.log.length fun u => (Function.update s.pc t _ u).producerOut
    rw [update_same _ _ (by rw [hpc]; rfl)]
    exact h.producers
  · show Tickets s.consPos s.takenPos fun u => (Function.update s.pc t _ u).consumerOut
    rw [update_same _ _ (by rw [hpc]; rfl)]
    exact h.consumers
  · refine threads_update s.pc rfl ?_ fun u hne => ?_
    · refine ⟨hstoring.reads, hstoring.count, hstoring.fits, hstoring.some, hk, hstoring.alone,
        hlo, hhi, hstoring.logged, fun i hi => ?_⟩
      show s.log[pos + i]? = some (Function.update s.ring.slots ((pos + k) % s.ring.size) x
        ((pos + i) % s.ring.size))
      rcases Nat.lt_or_ge i k with hlt | hge
      · rw [hother _ (by omega) (by omega) (by omega)]
        exact hstoring.stored i hlt
      · obtain rfl : i = k := by omega
        rw [Function.update_self, hstoring.logged i hk, hx]
    · have hothers := h.threads u
      have hapart := fun first count =>
        @Tickets.apart _ _ _ _ h.producers _ _ _ _ first count hne.symm hout
      generalize s.pc u = pc at hothers hapart
      cases pc with
      | idle | enqHead | deqHead | enqTail | enqCas | deqTail | deqCas | deqLoad => exact hothers
      | enqStore objs' fixed' single' head' free' n' pos' k' =>
          have h' : Storing s.ring.size s.ring.slots s.log s.prodPos objs' single' head' n' pos'
            k' := hothers
          have hlo' := h'.lo
          have hhi' := h'.hi
          have hle' := h'.le
          refine ⟨h'.reads, h'.count, h'.fits, h'.some, h'.le, h'.alone, hlo', hhi', h'.logged,
            fun i hi => (h'.stored i hi).trans (congrArg some (hother _ ?_ ?_ ?_).symm)⟩
          · omega
          · omega
          · have hdisjoint := hapart pos' n' (if_pos (by omega))
            omega
  · show Alone fun u => (Function.update s.pc t _ u).producer
    rw [update_same _ _ (by rw [hpc]; rfl)]
    exact h.producerAlone
  · show Alone fun u => (Function.update s.pc t _ u).consumer
    rw [update_same _ _ (by rw [hpc]; rfl)]
    exact h.consumerAlone

omit [DecidableEq ι] in
/-- The tail of the producers is moved by the one that is next. -/
theorem Ok.enqStore_pos (h : s.Ok) (hpc : s.pc t = .enqStore objs fixed single head free n pos k)
    (htail : single = true ∨ s.ring.prodTail = head) : pos = s.prodPos := by
  have hthread := h.threads t
  rw [hpc] at hthread
  have hstoring : Storing s.ring.size s.ring.slots s.log s.prodPos objs single head n pos k :=
    hthread
  rcases htail with hsingle | htail
  · exact hstoring.alone hsingle
  · have hlo := hstoring.lo
    have hhi := hstoring.hi
    have hroom := h.room
    have hconsLe := h.consLe
    have htakenLe := h.takenLe
    have hsize : s.ring.size < 2 ^ 32 := Nat.pow_lt_pow_right (by decide) h.order
    rw [h.prodTail, hstoring.reads] at htail
    exact (ofNat_inj_of_window hlo (by omega) htail).symm

theorem Ok.publish (h : s.Ok) (hpc : s.pc t = .enqStore objs fixed single head free n pos k)
    (hk : n ≤ k) (hpos : pos = s.prodPos) (code : Int) :
    ((s.publish t (head + BitVec.ofNat 32 n) (objs.take n)).leave t code []).Ok := by
  have hthread := h.threads t
  rw [hpc] at hthread
  have hstoring : Storing s.ring.size s.ring.slots s.log s.prodPos objs single head n pos k :=
    hthread
  have hlen : (objs.take n).length = n := by
    rw [List.length_take, Nat.min_eq_left hstoring.count]
  have hhi := hstoring.hi
  have htakenLe := h.takenLe
  have hproducer : (s.pc t).producer = some single := by
    rw [hpc]
    rfl
  have hprodPos : ((s.publish t (head + BitVec.ofNat 32 n) (objs.take n)).leave t code []).prodPos =
      s.prodPos + n := congrArg (s.prodPos + ·) hlen
  have hproducers : Tickets (s.prodPos + n) s.log.length
      (Function.update (fun u => (s.pc u).producerOut) t none) := by
    rcases Nat.eq_zero_or_pos n with rfl | hn
    · rw [show none = (s.pc t).producerOut by rw [hpc]; rfl, Function.update_eq_self]
      exact h.producers
    · refine h.producers.handIn ?_
      rw [hpc, ← hpos]
      exact if_pos hn
  refine ⟨h.order, h.prodHead, ?_, h.consHead, h.consTail, h.consLe, ?_, ?_, h.room, ?_, ?_, ?_,
    ?_, ?_, ?_⟩
  · rw [hprodPos]
    show head + BitVec.ofNat 32 n = _
    rw [hstoring.reads, hpos, BitVec.ofNat_add]
  · rw [hprodPos]
    exact htakenLe.trans (Nat.le_add_right _ _)
  · rw [hprodPos, ← hpos]
    exact hhi
  · rw [hprodPos]
    intro p hplo hphi
    rcases Nat.lt_or_ge p s.prodPos with hlt | hge
    · exact h.stored p hplo hlt
    · obtain ⟨i, rfl⟩ := Nat.exists_eq_add_of_le hge
      rw [← hpos]
      exact hstoring.stored i (by omega)
  · rw [hprodPos]
    show Tickets _ s.log.length fun u => (Function.update s.pc t .idle u).producerOut
    rw [update_comp]
    exact hproducers
  · show Tickets s.consPos s.takenPos fun u => (Function.update s.pc t .idle u).consumerOut
    rw [update_same _ _ (by rw [hpc]; rfl)]
    exact h.consumers
  · refine threads_update s.pc rfl trivial fun u hne => ?_
    have hothers := h.threads u
    have hrole := fun c => h.producer_ne (c := c) hne hproducer
    have hwithin := fun first count => @Tickets.within _ _ _ _ hproducers u first count
    rw [Function.update_of_ne hne] at hwithin
    generalize s.pc u = pc at hothers hrole hwithin
    cases pc with
    | idle | enqHead | deqHead | enqTail | enqCas | deqTail | deqLoad => exact hothers
    | enqStore objs' fixed' single' head' free' n' pos' k' =>
        have h' : Storing s.ring.size s.ring.slots s.log s.prodPos objs' single' head' n' pos' k' :=
          hothers
        have hshared := (hrole _ rfl).2
        refine ⟨h'.reads, h'.count, h'.fits, h'.some, h'.le, fun hsingle => ?_, ?_, h'.hi,
          h'.logged, h'.stored⟩
        · rw [hshared] at hsingle
          cases hsingle
        · rw [hprodPos]
          exact (hwithin pos' n' (if_pos (h'.some hshared))).1
    | deqCas max' fixed' single' head' n' pos' =>
        obtain ⟨hcount', hsome', hread', hthere'⟩ := hothers
        refine ⟨hcount', hsome', hread', fun heq => ?_⟩
        rw [hprodPos]
        exact (hthere' heq).trans (Nat.le_add_right _ _)
  · show Alone fun u => (Function.update s.pc t .idle u).producer
    rw [update_comp]
    exact h.producerAlone.leave
  · show Alone fun u => (Function.update s.pc t .idle u).consumer
    rw [update_comp]
    exact h.consumerAlone.leave

end Enqueue

section Dequeue

variable {max n pos : ℕ} {fixed single : Bool} {head : BitVec 32} {got : List α}

omit [DecidableEq ι] in
theorem Ok.deqCas_pos (h : s.Ok) (hpc : s.pc t = .deqCas max fixed single head n pos)
    (hawake : s.takenPos < pos + 2 ^ 32) (hcas : single = true ∨ s.ring.consHead = head) :
    pos = s.takenPos := by
  have hthread := h.threads t
  rw [hpc] at hthread
  obtain ⟨-, -, hread, -⟩ := hthread
  rcases hcas with hsingle | hhead
  · exact hread.alone hsingle
  · rw [h.consHead, hread.reads] at hhead
    exact ofNat_inj_of_window hread.le hawake hhead.symm

theorem Ok.take (h : s.Ok) (hpc : s.pc t = .deqCas max fixed single head n pos)
    (hpos : pos = s.takenPos) :
    (s.take t (head + BitVec.ofNat 32 n) n (.deqLoad fixed single head n pos [])).Ok := by
  have hthread := h.threads t
  rw [hpc] at hthread
  obtain ⟨-, hsome, hread, hthere⟩ := hthread
  have hthere := hthere hpos
  have hconsumer : (s.pc t).consumer = some single := by
    rw [hpc]
    rfl
  have hconsLe := h.consLe
  have hprodLe := h.prodLe
  have hroom := h.room
  refine ⟨h.order, h.prodHead, h.prodTail, ?_, h.consTail, ?_, ?_, hprodLe, hroom, h.stored, ?_, ?_,
    ?_, ?_, ?_⟩
  · show head + BitVec.ofNat 32 n = BitVec.ofNat 32 (s.takenPos + n)
    rw [hread.reads, hpos, BitVec.ofNat_add]
  · exact hconsLe.trans (Nat.le_add_right _ _)
  · show s.takenPos + n ≤ s.prodPos
    omega
  · show Tickets s.prodPos s.log.length fun u => (Function.update s.pc t _ u).producerOut
    rw [update_same _ _ (by rw [hpc]; rfl)]
    exact h.producers
  · show Tickets s.consPos (s.takenPos + n) fun u => (Function.update s.pc t _ u).consumerOut
    rcases Nat.eq_zero_or_pos n with rfl | hn
    · rw [update_same _ _ (by rw [hpc]; rfl)]
      exact h.consumers
    · rw [update_comp, RingPc.consumerOut, if_pos hn, hpos]
      exact h.consumers.draw hconsLe (by rw [hpc]; rfl) hn
  · refine threads_update s.pc rfl ?_ fun u hne => ?_
    · change Loading s.ring.size s.log s.consPos (s.takenPos + n) single head n pos []
      refine ⟨hread.reads, by omega, hsome, Nat.zero_le n, fun hsingle => ?_, by omega, by omega,
        rfl⟩
      rw [hpos]
      exact (h.consPos_eq_of_alone (by rw [hconsumer, hsingle]) (by rw [hpc]; rfl)).symm
    · have hothers := h.threads u
      have hrole := fun c => h.consumer_ne (c := c) hne hconsumer
      generalize s.pc u = pc at hothers hrole
      cases pc with
      | idle | enqHead | deqHead | enqTail | enqCas | enqStore => exact hothers
      | deqTail max' fixed' single' head' pos' =>
          obtain ⟨hsome', hread'⟩ := hothers
          exact ⟨hsome', hread'.grow (Nat.le_add_right _ _) (hrole _ rfl).2⟩
      | deqCas max' fixed' single' head' n' pos' =>
          obtain ⟨hcount', hsome', hread', -⟩ := hothers
          have hn := hsome (hrole _ rfl).1
          refine ⟨hcount', hsome', hread'.grow (Nat.le_add_right _ _) (hrole _ rfl).2,
            fun heq => ?_⟩
          have hle := hread'.le
          change pos' = s.takenPos + n at heq
          omega
      | deqLoad fixed' single' head' n' pos' got' =>
          have h' : Loading s.ring.size s.log s.consPos s.takenPos single' head' n' pos' got' :=
            hothers
          exact ⟨h'.reads, h'.fits, h'.some, h'.le, h'.alone, h'.lo,
            h'.hi.trans (Nat.le_add_right _ _), h'.got⟩
  · show Alone fun u => (Function.update s.pc t _ u).producer
    rw [update_same _ _ (by rw [hpc]; rfl)]
    exact h.producerAlone
  · show Alone fun u => (Function.update s.pc t _ u).consumer
    rw [update_same _ _ (by rw [hpc]; rfl)]
    exact h.consumerAlone

omit [DecidableEq ι] in
/-- A consumer finds what was put there for it. -/
theorem Ok.loaded (h : s.Ok) (hpc : s.pc t = .deqLoad fixed single head n pos got)
    (hlt : got.length < n) :
    Loading s.ring.size s.log s.consPos s.takenPos single head n pos
      (got ++ [s.ring.slots ((pos + got.length) % s.ring.size)]) := by
  have hthread := h.threads t
  rw [hpc] at hthread
  have hloading : Loading s.ring.size s.log s.consPos s.takenPos single head n pos got := hthread
  have hlo := hloading.lo
  have hhi := hloading.hi
  have htakenLe := h.takenLe
  refine ⟨hloading.reads, hloading.fits, hloading.some, ?_, hloading.alone, hlo, hhi, ?_⟩
  · rw [List.length_append, List.length_singleton]
    exact hlt
  · have hslot := h.stored (pos + got.length) (by omega) (by omega)
    have hnext : (s.log.drop pos)[got.length]? =
        some (s.ring.slots ((pos + got.length) % s.ring.size)) := by
      rw [List.getElem?_drop]
      exact hslot
    rw [List.length_append, List.length_singleton, List.take_add_one, ← hloading.got, hnext]
    rfl

omit [DecidableEq ι] in
/-- The tail of the consumers is moved by the one that is next. -/
theorem Ok.deqLoad_pos (h : s.Ok) (hpc : s.pc t = .deqLoad fixed single head n pos got)
    (htail : single = true ∨ s.ring.consTail = head) : pos = s.consPos := by
  have hthread := h.threads t
  rw [hpc] at hthread
  have hloading : Loading s.ring.size s.log s.consPos s.takenPos single head n pos got := hthread
  rcases htail with hsingle | htail
  · exact hloading.alone hsingle
  · have hlo := hloading.lo
    have hhi := hloading.hi
    have hroom := h.room
    have htakenLe := h.takenLe
    have hprodLe := h.prodLe
    have hsize : s.ring.size < 2 ^ 32 := Nat.pow_lt_pow_right (by decide) h.order
    rw [h.consTail, hloading.reads] at htail
    exact (ofNat_inj_of_window hlo (by omega) htail).symm

theorem Ok.release (h : s.Ok) (hpc : s.pc t = .deqLoad fixed single head n pos got)
    (hpos : pos = s.consPos) (code : Int) :
    ((s.release t (head + BitVec.ofNat 32 n) n got).leave t code got).Ok := by
  have hthread := h.threads t
  rw [hpc] at hthread
  have hloading : Loading s.ring.size s.log s.consPos s.takenPos single head n pos got := hthread
  have hhi := hloading.hi
  have hroom := h.room
  have hconsumer : (s.pc t).consumer = some single := by
    rw [hpc]
    rfl
  have hconsumers : Tickets (s.consPos + n) s.takenPos
      (Function.update (fun u => (s.pc u).consumerOut) t none) := by
    rcases Nat.eq_zero_or_pos n with rfl | hn
    · rw [show none = (s.pc t).consumerOut by rw [hpc]; rfl, Function.update_eq_self]
      exact h.consumers
    · refine h.consumers.handIn ?_
      rw [hpc, ← hpos]
      exact if_pos hn
  refine ⟨h.order, h.prodHead, h.prodTail, h.consHead, ?_, ?_, h.takenLe, h.prodLe, ?_, ?_, ?_, ?_,
    ?_, ?_, ?_⟩
  · show head + BitVec.ofNat 32 n = BitVec.ofNat 32 (s.consPos + n)
    rw [hloading.reads, hpos, BitVec.ofNat_add]
  · show s.consPos + n ≤ s.takenPos
    omega
  · show s.log.length < s.consPos + n + s.ring.size
    omega
  · exact fun p hlo hhi' => h.stored p ((Nat.le_add_right _ _).trans hlo) hhi'
  · show Tickets s.prodPos s.log.length fun u => (Function.update s.pc t .idle u).producerOut
    rw [update_same _ _ (by rw [hpc]; rfl)]
    exact h.producers
  · show Tickets (s.consPos + n) s.takenPos fun u => (Function.update s.pc t .idle u).consumerOut
    rw [update_comp]
    exact hconsumers
  · refine threads_update s.pc rfl trivial fun u hne => ?_
    have hothers := h.threads u
    have hrole := fun c => h.consumer_ne (c := c) hne hconsumer
    have hwithin := fun first count => @Tickets.within _ _ _ _ hconsumers u first count
    rw [Function.update_of_ne hne] at hwithin
    generalize s.pc u = pc at hothers hrole hwithin
    cases pc with
    | idle | enqHead | deqHead | enqTail | enqStore | deqTail | deqCas => exact hothers
    | enqCas objs' fixed' single' head' free' n' pos' =>
        obtain ⟨hcount', hsome', hread', hroom'⟩ := hothers
        refine ⟨hcount', hsome', hread', fun heq => ?_⟩
        have hlt := hroom' heq
        show pos' + n' < s.consPos + n + s.ring.size
        omega
    | deqLoad fixed' single' head' n' pos' got' =>
        have h' : Loading s.ring.size s.log s.consPos s.takenPos single' head' n' pos' got' :=
          hothers
        have hshared := (hrole _ rfl).2
        refine ⟨h'.reads, h'.fits, h'.some, h'.le, fun hsingle => ?_, ?_, h'.hi, h'.got⟩
        · rw [hshared] at hsingle
          cases hsingle
        · exact (hwithin pos' n' (if_pos (h'.some hshared))).1
  · show Alone fun u => (Function.update s.pc t .idle u).producer
    rw [update_comp]
    exact h.producerAlone.leave
  · show Alone fun u => (Function.update s.pc t .idle u).consumer
    rw [update_comp]
    exact h.consumerAlone.leave

end Dequeue

omit [DecidableEq ι] in
/-- The room that a producer sees when the head has not moved. -/
theorem Ok.free_eq (h : s.Ok) {pos : ℕ} (hpos : pos = s.log.length) :
    (s.ring.mask + s.ring.consTail - BitVec.ofNat 32 pos).toNat =
      s.ring.size - 1 + s.consPos - pos := by
  have hroom := h.room
  have hconsLe := h.consLe
  have htakenLe := h.takenLe
  have hprodLe := h.prodLe
  have hsize : s.ring.size < 2 ^ 32 := Nat.pow_lt_pow_right (by decide) h.order
  rw [RteRing.mask, h.consTail, ← BitVec.ofNat_add]
  exact toNat_ofNat_sub_ofNat (by omega) (by omega)

omit [DecidableEq ι] in
/-- The objects that a consumer sees when the head has not moved. -/
theorem Ok.entries_eq (h : s.Ok) {pos : ℕ} (hpos : pos = s.takenPos) :
    (s.ring.prodTail - BitVec.ofNat 32 pos).toNat = s.prodPos - pos := by
  have hroom := h.room
  have hconsLe := h.consLe
  have htakenLe := h.takenLe
  have hprodLe := h.prodLe
  have hsize : s.ring.size < 2 ^ 32 := Nat.pow_lt_pow_right (by decide) h.order
  rw [h.prodTail]
  exact toNat_ofNat_sub_ofNat (by omega) (by omega)

theorem Ok.call (h : s.Ok) {c : RingCall α} (hguard : s.Guarded (.call t c))
    {s' : RingThreads ι α} (hstep : s.call t c = some s') : s'.Ok := by
  unfold RingThreads.call at hstep
  split at hstep
  next hidle =>
    have hnone : ∀ {β : Type _} {f : RingPc α → Option β}, f .idle = none → f (s.pc t) = none := by
      intro β f hf
      rw [hidle, hf]
    cases c with
    | enqueue objs fixed single =>
        dsimp only at hstep
        split at hstep
        next =>
          cases hstep
          exact h.leave (hnone rfl) (hnone rfl) 0 []
        next hsome =>
          cases hstep
          refine h.enter hidle (fun hsingle hnil => hsome ⟨hsingle, hnil⟩)
            (h.producerAlone.enter hguard) ?_ rfl rfl
          rw [show (RingPc.enqHead objs fixed single).consumer = (s.pc t).consumer by
            rw [hidle]; rfl, Function.update_eq_self]
          exact h.consumerAlone
    | dequeue max fixed single =>
        dsimp only at hstep
        split at hstep
        next =>
          cases hstep
          exact h.leave (hnone rfl) (hnone rfl) 0 []
        next hsome =>
          cases hstep
          refine h.enter hidle
            (fun hsingle => Nat.pos_of_ne_zero fun hzero => hsome ⟨hsingle, hzero⟩) ?_
            (h.consumerAlone.enter hguard) rfl rfl
          rw [show (RingPc.deqHead max fixed single).producer = (s.pc t).producer by
            rw [hidle]; rfl, Function.update_eq_self]
          exact h.producerAlone
  next => cases hstep

theorem Ok.advance (h : s.Ok) (hguard : s.Guarded (.advance t)) {s' : RingThreads ι α}
    (hstep : s.advance t = some s') : s'.Ok := by
  have hthread := h.threads t
  have hsame : ∀ {β : Type _} (f : RingPc α → β) {next pc : RingPc α}, s.pc t = pc →
      f next = f pc → f next = f (s.pc t) := by
    intro β f next pc hpc hf
    rw [hpc, hf]
  unfold RingThreads.Guarded at hguard
  dsimp only at hguard
  unfold RingThreads.advance at hstep
  cases hpc : s.pc t with
  | idle =>
      rw [hpc] at hstep
      cases hstep
  | enqHead objs fixed single =>
      rw [hpc] at hstep hthread
      cases hstep
      exact h.goto ⟨hthread, h.prodHead, le_rfl, fun _ => rfl⟩ (hsame _ hpc rfl)
        (hsame _ hpc rfl) (hsame _ hpc rfl) (hsame _ hpc rfl)
  | enqTail objs fixed single head pos =>
      rw [hpc] at hstep hthread
      obtain ⟨hsome, hread⟩ := hthread
      have hfree : pos = s.log.length →
          (s.ring.mask + s.ring.consTail - head).toNat = s.ring.size - 1 + s.consPos - pos := by
        rw [hread.reads]
        exact h.free_eq
      have hroom := h.room
      have hnone : ∀ (n : ℕ), n ≤ objs.length → (single = false → 0 < n) →
          n ≤ (s.ring.mask + s.ring.consTail - head).toNat → ∀ free,
            (s.goto t (.enqCas objs fixed single head free n pos)).Ok := by
        intro n hcount hpos hle free
        refine h.goto ⟨hcount, hpos, hread, fun heq => ?_⟩ (hsame _ hpc rfl) (hsame _ hpc rfl)
          (hsame _ hpc rfl) (hsame _ hpc rfl)
        have hfree := hfree heq
        have hsize := s.ring.size_pos
        change pos = s.log.length at heq
        show pos + n < s.consPos + s.ring.size
        omega
      dsimp only at hstep
      split at hstep
      next hshort =>
        split at hstep
        next =>
          cases hstep
          exact h.leave (hsame _ hpc rfl).symm (hsame _ hpc rfl).symm _ _
        next =>
          split at hstep
          next =>
            cases hstep
            exact h.leave (hsame _ hpc rfl).symm (hsame _ hpc rfl).symm _ _
          next hne =>
            cases hstep
            refine hnone _ hshort.le (fun _ => Nat.pos_of_ne_zero fun hzero => hne ?_) le_rfl _
            exact BitVec.eq_of_toNat_eq hzero
      next henough =>
        cases hstep
        exact hnone _ le_rfl (fun hsingle => List.length_pos_iff.mpr (hsome hsingle))
          (Nat.not_lt.mp henough) _
  | enqCas objs fixed single head free n pos =>
      rw [hpc] at hstep hthread hguard
      dsimp only at hstep
      split at hstep
      next hcas =>
        cases hstep
        exact h.claim hpc (h.enqCas_pos hpc hguard hcas)
      next hmoved =>
        cases hstep
        obtain ⟨hcount, hsome, -⟩ := hthread
        refine h.goto (fun hsingle => List.ne_nil_of_length_pos ?_) (hsame _ hpc rfl)
          (hsame _ hpc rfl) (hsame _ hpc rfl) (hsame _ hpc rfl)
        have hpos := hsome hsingle
        omega
  | enqStore objs fixed single head free n pos k =>
      rw [hpc] at hstep hthread
      have hstoring : Storing s.ring.size s.ring.slots s.log s.prodPos objs single head n pos k :=
        hthread
      have hptrs := RteRing.ptrs_getElem? h.order pos hstoring.fits.le k
      rw [← hstoring.reads] at hptrs
      dsimp only at hstep
      rw [hptrs] at hstep
      by_cases hk : k < n
      · rw [if_pos hk] at hstep
        obtain ⟨x, hx, rfl⟩ := Option.map_eq_some_iff.mp hstep
        exact h.store hpc hk hx
      · rw [if_neg hk] at hstep
        dsimp only at hstep
        split at hstep
        next htail =>
          cases hstep
          exact h.publish hpc (Nat.not_lt.mp hk) (h.enqStore_pos hpc htail) _
        next => cases hstep
  | deqHead max fixed single =>
      rw [hpc] at hstep hthread
      cases hstep
      exact h.goto ⟨hthread, h.consHead, le_rfl, fun _ => rfl⟩ (hsame _ hpc rfl)
        (hsame _ hpc rfl) (hsame _ hpc rfl) (hsame _ hpc rfl)
  | deqTail max fixed single head pos =>
      rw [hpc] at hstep hthread
      obtain ⟨hsome, hread⟩ := hthread
      have hentries : pos = s.takenPos → (s.ring.prodTail - head).toNat = s.prodPos - pos := by
        rw [hread.reads]
        exact h.entries_eq
      have htakenLe := h.takenLe
      have hnone : ∀ (n : ℕ), n ≤ max → (single = false → 0 < n) →
          n ≤ (s.ring.prodTail - head).toNat →
            (s.goto t (.deqCas max fixed single head n pos)).Ok := by
        intro n hcount hpos hle
        refine h.goto ⟨hcount, hpos, hread, fun heq => ?_⟩ (hsame _ hpc rfl) (hsame _ hpc rfl)
          (hsame _ hpc rfl) (hsame _ hpc rfl)
        have hentries := hentries heq
        change pos = s.takenPos at heq
        show pos + n ≤ s.prodPos
        omega
      dsimp only at hstep
      split at hstep
      next hshort =>
        split at hstep
        next =>
          cases hstep
          exact h.leave (hsame _ hpc rfl).symm (hsame _ hpc rfl).symm _ _
        next =>
          split at hstep
          next =>
            cases hstep
            exact h.leave (hsame _ hpc rfl).symm (hsame _ hpc rfl).symm _ _
          next hne =>
            cases hstep
            refine hnone _ hshort.le (fun _ => Nat.pos_of_ne_zero fun hzero => hne ?_) le_rfl
            exact BitVec.eq_of_toNat_eq hzero
      next henough =>
        cases hstep
        exact hnone _ le_rfl hsome (Nat.not_lt.mp henough)
  | deqCas max fixed single head n pos =>
      rw [hpc] at hstep hthread hguard
      dsimp only at hstep
      split at hstep
      next hcas =>
        cases hstep
        exact h.take hpc (h.deqCas_pos hpc hguard hcas)
      next hmoved =>
        cases hstep
        obtain ⟨hcount, hsome, -⟩ := hthread
        exact h.goto (fun hsingle => (hsome hsingle).trans_le hcount) (hsame _ hpc rfl)
          (hsame _ hpc rfl) (hsame _ hpc rfl) (hsame _ hpc rfl)
  | deqLoad fixed single head n pos got =>
      rw [hpc] at hstep hthread
      have hloading : Loading s.ring.size s.log s.consPos s.takenPos single head n pos got :=
        hthread
      have hptrs := RteRing.ptrs_getElem? h.order pos hloading.fits.le got.length
      rw [← hloading.reads] at hptrs
      dsimp only at hstep
      rw [hptrs] at hstep
      by_cases hk : got.length < n
      · rw [if_pos hk] at hstep
        cases hstep
        exact h.goto (h.loaded hpc hk) (hsame _ hpc rfl) (hsame _ hpc rfl) (hsame _ hpc rfl)
          (hsame _ hpc rfl)
      · rw [if_neg hk] at hstep
        dsimp only at hstep
        split at hstep
        next htail =>
          cases hstep
          exact h.release hpc (h.deqLoad_pos hpc htail) _
        next => cases hstep

omit [DecidableEq ι] in
/-- The water mark does not matter to the objects. -/
theorem setWaterMark_eq (s : RingThreads ι α) (count : BitVec 32) :
    ∃ watermark, s.setWaterMark count = { s with ring := { s.ring with watermark } } := by
  unfold setWaterMark RteRing.rteRingSetWaterMark
  split
  next => exact ⟨s.ring.watermark, rfl⟩
  next => exact ⟨_, rfl⟩

omit [DecidableEq ι] in
theorem Ok.setWaterMark (h : s.Ok) (count : BitVec 32) : (s.setWaterMark count).Ok := by
  obtain ⟨watermark, hs⟩ := setWaterMark_eq s count
  rw [hs]
  exact { h with threads := h.threads }

end Steps

end RingThreads

end IpAugenblick
