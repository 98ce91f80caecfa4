/-
# The ring of the DPDK

`rte_ring.h` step by step: a thread reads the head of its side, reads the tail of the other side,
moves its head by a compare and set, copies the objects, and moves its tail when all that came
before it have moved theirs.  The indices are 32-bit counters that wrap.

A state also records what no thread reads: the objects in the order in which room was taken for
them, how far the four indices have come altogether, and the order in which the operations take
effect.
-/

import IpAugenblick.Lib.Machine
import IpAugenblick.Lib.Ring
import IpAugenblick.Lib.Tickets

namespace IpAugenblick

open Lib

universe u v

/-- `struct rte_ring`, with `2 ^ order` slots. -/
structure RteRing (α : Type v) where
  order : ℕ
  prodHead : BitVec 32
  prodTail : BitVec 32
  consHead : BitVec 32
  consTail : BitVec 32
  watermark : BitVec 32
  slots : ℕ → α

namespace RteRing

variable {α : Type v} (r : RteRing α)

/-- `prod.size` and `cons.size`. -/
def size : ℕ := 2 ^ r.order

/-- `prod.mask`. -/
def mask : BitVec 32 := BitVec.ofNat 32 (r.size - 1)

/-- `rte_ring_init` with the slots as they are in memory. -/
def rteRingInit (order : ℕ) (slots : ℕ → α) : RteRing α where
  order := order
  prodHead := 0
  prodTail := 0
  consHead := 0
  consTail := 0
  watermark := BitVec.ofNat 32 (2 ^ order)
  slots := slots

def rteRingSetWaterMark (count : BitVec 32) : Int × RteRing α :=
  if r.size ≤ count.toNat then (-22, r)
  else (0, { r with watermark := if count = 0 then BitVec.ofNat 32 r.size else count })

def rteRingCount : BitVec 32 := (r.prodTail - r.consTail) &&& r.mask

def rteRingFreeCount : BitVec 32 := (r.consTail - r.prodTail - 1) &&& r.mask

def rteRingFull : Bool := (r.consTail - r.prodTail - 1) &&& r.mask == 0

def rteRingEmpty : Bool := r.consTail == r.prodTail

/-- The unrolled loop and the `switch` behind it: from slot `idx` on, slot and index in the
table. -/
def unrolled (idx n : ℕ) : List (ℕ × ℕ) :=
  ((List.range (n / 4)).flatMap fun j =>
    [(idx + 4 * j, 4 * j), (idx + 4 * j + 1, 4 * j + 1), (idx + 4 * j + 2, 4 * j + 2),
      (idx + 4 * j + 3, 4 * j + 3)]) ++
  (List.range (n % 4)).map fun j => (idx + 4 * (n / 4) + j, 4 * (n / 4) + j)

def wrapped (idx n size : ℕ) : List (ℕ × ℕ) :=
  (List.range (size - idx)).map (fun i => (idx + i, i)) ++
    (List.range (n - (size - idx))).map fun idx' => (idx', size - idx + idx')

/-- The copies of `ENQUEUE_PTRS` and `DEQUEUE_PTRS` in their order: slot and index in the table. -/
def ptrs (head : BitVec 32) (n : ℕ) : List (ℕ × ℕ) :=
  let idx := (head &&& r.mask).toNat
  if idx + n < r.size then unrolled idx n else wrapped idx n r.size

/-- The return value of an enqueue of `n` objects: 0, `-EDQUOT`, or the number with
`RTE_RING_QUOT_EXCEED`. -/
def enqueueRet (fixed : Bool) (free : BitVec 32) (n : ℕ) : Int :=
  if r.watermark < r.mask + 1 - free + BitVec.ofNat 32 n then
    if fixed then -122 else (n : Int) - 2 ^ 31
  else if fixed then 0 else n

end RteRing

/-- A call.  `single` is the single-producer or single-consumer function, `fixed` the bulk one. -/
inductive RingCall (α : Type v)
  | enqueue (objs : List α) (fixed single : Bool)
  | dequeue (max : ℕ) (fixed single : Bool)
  deriving DecidableEq, Repr

/-- Where a thread is.  `pos` is how far the head had come when it was read. -/
inductive RingPc (α : Type v)
  | /-- In no call. -/
    idle
  | /-- At the top of the loop of an enqueue. -/
    enqHead (objs : List α) (fixed single : Bool)
  | /-- `prod_head` is read. -/
    enqTail (objs : List α) (fixed single : Bool) (head : BitVec 32) (pos : ℕ)
  | /-- There is room for `n`. -/
    enqCas (objs : List α) (fixed single : Bool) (head free : BitVec 32) (n pos : ℕ)
  | /-- `prod.head` is moved and `k` objects are stored. -/
    enqStore (objs : List α) (fixed single : Bool) (head free : BitVec 32) (n pos k : ℕ)
  | /-- At the top of the loop of a dequeue. -/
    deqHead (max : ℕ) (fixed single : Bool)
  | /-- `cons_head` is read. -/
    deqTail (max : ℕ) (fixed single : Bool) (head : BitVec 32) (pos : ℕ)
  | /-- There are `n` objects. -/
    deqCas (max : ℕ) (fixed single : Bool) (head : BitVec 32) (n pos : ℕ)
  | /-- `cons.head` is moved and `got` is loaded. -/
    deqLoad (fixed single : Bool) (head : BitVec 32) (n pos : ℕ) (got : List α)
  deriving DecidableEq, Repr

inductive RingOp (ι : Type u) (α : Type v)
  | enqueue (t : ι) (objs : List α)
  | dequeue (t : ι) (objs : List α)
  deriving DecidableEq, Repr

/-- What happens: a thread calls, or takes the next step of its call, or the water mark is set. -/
inductive RingAct (ι : Type u) (α : Type v)
  | call (t : ι) (c : RingCall α)
  | advance (t : ι)
  | setWaterMark (count : BitVec 32)
  deriving DecidableEq, Repr

structure RingThreads (ι : Type u) (α : Type v) where
  ring : RteRing α
  pc : ι → RingPc α
  /-- What the last call of a thread returned: the code, and the table of a dequeue. -/
  ret : ι → Int × List α
  /-- The operations in the order in which they returned. -/
  returned : List (RingOp ι α)
  /-- The objects that room was ever taken for. -/
  log : List α
  /-- How far `prod.tail` has come. -/
  prodPos : ℕ
  /-- How far `cons.head` has come. -/
  takenPos : ℕ
  /-- How far `cons.tail` has come. -/
  consPos : ℕ
  /-- The operations in the order in which they take effect. -/
  effects : List (RingOp ι α)

namespace RingThreads

variable {ι : Type u} {α : Type v} [DecidableEq ι]

/-- A ring that nobody uses. -/
def init (order : ℕ) (slots : ℕ → α) : RingThreads ι α where
  ring := .rteRingInit order slots
  pc _ := .idle
  ret _ := (0, [])
  returned := []
  log := []
  prodPos := 0
  takenPos := 0
  consPos := 0
  effects := []

/-- The thread goes on at `pc`. -/
def goto (s : RingThreads ι α) (t : ι) (pc : RingPc α) : RingThreads ι α :=
  { s with pc := Function.update s.pc t pc }

def leave (s : RingThreads ι α) (t : ι) (code : Int) (objs : List α) : RingThreads ι α :=
  { s with pc := Function.update s.pc t .idle, ret := Function.update s.ret t (code, objs) }

/-- The compare and set of `prod.head` that succeeds: there is room for `objs`. -/
def claim (s : RingThreads ι α) (t : ι) (prodHead : BitVec 32) (objs : List α)
    (next : RingPc α) : RingThreads ι α :=
  { s with
    ring := { s.ring with prodHead := prodHead }
    pc := Function.update s.pc t next
    log := s.log ++ objs }

def store (s : RingThreads ι α) (t : ι) (idx : ℕ) (x : α) (next : RingPc α) : RingThreads ι α :=
  { s with
    ring := { s.ring with slots := Function.update s.ring.slots idx x }
    pc := Function.update s.pc t next }

/-- `prod.tail` is moved behind `objs`. -/
def publish (s : RingThreads ι α) (t : ι) (prodTail : BitVec 32) (objs : List α) :
    RingThreads ι α :=
  { s with
    ring := { s.ring with prodTail := prodTail }
    prodPos := s.prodPos + objs.length
    returned := s.returned ++ [.enqueue t objs]
    effects := s.effects ++ [.enqueue t objs] }

/-- The compare and set of `cons.head` that succeeds: the next `n` objects are taken. -/
def take (s : RingThreads ι α) (t : ι) (consHead : BitVec 32) (n : ℕ) (next : RingPc α) :
    RingThreads ι α :=
  { s with
    ring := { s.ring with consHead := consHead }
    pc := Function.update s.pc t next
    takenPos := s.takenPos + n
    effects := s.effects ++ [.dequeue t ((s.log.drop s.takenPos).take n)] }

/-- `cons.tail` is moved behind the objects that were loaded. -/
def release (s : RingThreads ι α) (t : ι) (consTail : BitVec 32) (n : ℕ) (got : List α) :
    RingThreads ι α :=
  { s with
    ring := { s.ring with consTail := consTail }
    consPos := s.consPos + n
    returned := s.returned ++ [.dequeue t got] }

/-- A thread calls.  With nothing to do the functions for many producers or consumers return at
once. -/
def call (s : RingThreads ι α) (t : ι) (c : RingCall α) : Option (RingThreads ι α) :=
  match s.pc t with
  | .idle =>
      match c with
      | .enqueue objs fixed single =>
          if single = false ∧ objs = [] then some (s.leave t 0 [])
          else some (s.goto t (.enqHead objs fixed single))
      | .dequeue max fixed single =>
          if single = false ∧ max = 0 then some (s.leave t 0 [])
          else some (s.goto t (.deqHead max fixed single))
  | _ => none

/-- A thread takes the next step of its call; `none` when it waits for another. -/
def advance (s : RingThreads ι α) (t : ι) : Option (RingThreads ι α) :=
  match s.pc t with
  | .idle => none
  | .enqHead objs fixed single =>
      some (s.goto t (.enqTail objs fixed single s.ring.prodHead s.log.length))
  | .enqTail objs fixed single head pos =>
      let free := s.ring.mask + s.ring.consTail - head
      if free.toNat < objs.length then
        if fixed = true then some (s.leave t (-105) [])
        else if free = 0 then some (s.leave t 0 [])
        else some (s.goto t (.enqCas objs fixed single head free free.toNat pos))
      else some (s.goto t (.enqCas objs fixed single head free objs.length pos))
  | .enqCas objs fixed single head free n pos =>
      if single = true ∨ s.ring.prodHead = head then
        some (s.claim t (head + BitVec.ofNat 32 n) (objs.take n)
          (.enqStore objs fixed single head free n pos 0))
      else some (s.goto t (.enqHead objs fixed single))
  | .enqStore objs fixed single head free n pos k =>
      match (s.ring.ptrs head n)[k]? with
      | some (idx, i) =>
          (objs[i]?).map fun x =>
            s.store t idx x (.enqStore objs fixed single head free n pos (k + 1))
      | none =>
          if single = true ∨ s.ring.prodTail = head then
            some ((s.publish t (head + BitVec.ofNat 32 n) (objs.take n)).leave t
              (s.ring.enqueueRet fixed free n) [])
          else none
  | .deqHead max fixed single =>
      some (s.goto t (.deqTail max fixed single s.ring.consHead s.takenPos))
  | .deqTail max fixed single head pos =>
      let entries := s.ring.prodTail - head
      if entries.toNat < max then
        if fixed = true then some (s.leave t (-2) [])
        else if entries = 0 then some (s.leave t 0 [])
        else some (s.goto t (.deqCas max fixed single head entries.toNat pos))
      else some (s.goto t (.deqCas max fixed single head max pos))
  | .deqCas max fixed single head n pos =>
      if single = true ∨ s.ring.consHead = head then
        some (s.take t (head + BitVec.ofNat 32 n) n (.deqLoad fixed single head n pos []))
      else some (s.goto t (.deqHead max fixed single))
  | .deqLoad fixed single head n pos got =>
      match (s.ring.ptrs head n)[got.length]? with
      | some (idx, _) =>
          some (s.goto t (.deqLoad fixed single head n pos (got ++ [s.ring.slots idx])))
      | none =>
          if single = true ∨ s.ring.consTail = head then
            some ((s.release t (head + BitVec.ofNat 32 n) n got).leave t
              (if fixed then 0 else n) got)
          else none

/-- The water mark is set; -EINVAL leaves it. -/
def setWaterMark (s : RingThreads ι α) (count : BitVec 32) : RingThreads ι α :=
  { s with ring := (s.ring.rteRingSetWaterMark count).2 }

/-- The threads as a machine.  A step is one access of one thread to what they share, in the order
of the source, so every interleaving of the accesses is a run. -/
def machine (ι : Type u) [DecidableEq ι] {α : Type v} (order : ℕ) (slots : ℕ → α) :
    Machine (RingThreads ι α) (RingAct ι α) where
  init := init order slots
  step s
    | .call t c => s.call t c
    | .advance t => s.advance t
    | .setWaterMark count => some (s.setWaterMark count)

end RingThreads

end IpAugenblick
