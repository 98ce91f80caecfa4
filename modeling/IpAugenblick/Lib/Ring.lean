/-
# Bounded FIFO rings

A ring of capacity `cap` is the list of its objects, oldest first, together
with the bound on its length, so an overfull ring cannot be built.  A fixed-size
("bulk") request succeeds entirely or not at all; a burst request moves as many
objects as fit.  A bulk enqueue also reports whether the ring has passed its
high-water mark: passing the mark is reported by a code of its own and is still
a success.
-/

import Mathlib.Data.List.Basic

namespace IpAugenblick.Lib

universe u

/-- The objects of a bounded FIFO, oldest first. -/
structure Ring (α : Type u) (cap : ℕ) where
  /-- The stored objects. -/
  items : List α
  /-- The ring never holds more than its capacity. -/
  bound : items.length ≤ cap

inductive EnqueueCode
  | /-- Stored, below the high-water mark. -/
    success
  | /-- Stored, and the high-water mark is exceeded. -/
    quota
  | /-- Nothing stored: not enough room. -/
    nobufs
  deriving DecidableEq, Repr

namespace Ring

variable {α : Type u} {cap : ℕ}

def empty : Ring α cap := ⟨[], Nat.zero_le _⟩

def count (r : Ring α cap) : ℕ := r.items.length

def freeCount (r : Ring α cap) : ℕ := cap - r.items.length

@[ext]
theorem ext {r s : Ring α cap} (h : r.items = s.items) : r = s := by
  cases r
  cases s
  simpa using h

@[simp]
theorem items_empty : (empty : Ring α cap).items = [] := rfl

/-- Store as many of `xs` as fit, in order. -/
def enqueueBurst (r : Ring α cap) (xs : List α) : Ring α cap where
  items := r.items ++ xs.take r.freeCount
  bound := by
    have := r.bound
    simp only [List.length_append, List.length_take, freeCount]
    omega

/-- Store all of `xs` or nothing, and report it against the water mark: the
mark is compared with the slots in use, counting the one slot a ring always
keeps free. -/
def enqueueBulk (watermark : ℕ) (r : Ring α cap) (xs : List α) :
    EnqueueCode × Ring α cap :=
  if r.freeCount < xs.length then (.nobufs, r)
  else if watermark < (cap + 1) - r.freeCount + xs.length then (.quota, r.enqueueBurst xs)
  else (.success, r.enqueueBurst xs)

def dequeue (r : Ring α cap) : Option (α × Ring α cap) :=
  match h : r.items with
  | [] => none
  | x :: xs => some (x, ⟨xs, by have := r.bound; simp [h] at this; omega⟩)

/-- Take up to `n` objects. -/
def dequeueBurst (r : Ring α cap) (n : ℕ) : List α × Ring α cap :=
  (r.items.take n, ⟨r.items.drop n, by have := r.bound; simp; omega⟩)

/-! ## What the operations do to the stored objects -/

/-- A burst that fits is stored entirely. -/
theorem items_enqueueBurst (r : Ring α cap) {xs : List α} (hfit : xs.length ≤ r.freeCount) :
    (r.enqueueBurst xs).items = r.items ++ xs := by
  simp [enqueueBurst, List.take_of_length_le hfit]

theorem dequeue_eq_none_iff (r : Ring α cap) : r.dequeue = none ↔ r.items = [] := by
  unfold dequeue
  split <;> simp_all

theorem dequeue_eq_some_iff (r s : Ring α cap) (x : α) :
    r.dequeue = some (x, s) ↔ r.items = x :: s.items := by
  unfold dequeue
  split
  next h => simp [h]
  next y ys h =>
    simp only [Option.some.injEq, Prod.mk.injEq, h, List.cons.injEq]
    constructor
    · rintro ⟨rfl, rfl⟩
      exact ⟨rfl, rfl⟩
    · rintro ⟨rfl, rfl⟩
      exact ⟨rfl, Ring.ext rfl⟩

@[simp]
theorem dequeueBurst_fst (r : Ring α cap) (n : ℕ) :
    (r.dequeueBurst n).1 = r.items.take n := rfl

@[simp]
theorem items_dequeueBurst (r : Ring α cap) (n : ℕ) :
    (r.dequeueBurst n).2.items = r.items.drop n := rfl

/-- With the water mark at one slot, a successful enqueue is always reported as
over quota. -/
theorem enqueueBulk_one_ne_success (r : Ring α cap) (xs : List α) (hxs : xs ≠ []) :
    (r.enqueueBulk 1 xs).1 ≠ .success := by
  have hlength : 0 < xs.length := List.length_pos_iff.mpr hxs
  have hbound := r.bound
  unfold enqueueBulk
  split
  · simp
  · have hmark : 1 < (cap + 1) - r.freeCount + xs.length := by
      simp only [freeCount]
      omega
    simp [hmark]

/-- An enqueue that is not refused appends the objects. -/
theorem items_enqueueBulk (watermark : ℕ) (r : Ring α cap) (xs : List α) :
    (r.enqueueBulk watermark xs).2.items =
      if r.freeCount < xs.length then r.items else r.items ++ xs := by
  unfold enqueueBulk
  split
  next h => rfl
  next h =>
    have hfit : xs.length ≤ r.freeCount := by omega
    split <;> exact r.items_enqueueBurst hfit

/-- An enqueue keeps what is stored. -/
theorem mem_enqueueBulk {watermark : ℕ} {r : Ring α cap} {xs : List α} {x : α}
    (h : x ∈ r.items) : x ∈ (r.enqueueBulk watermark xs).2.items := by
  rw [items_enqueueBulk]
  split
  · exact h
  · exact List.mem_append_left _ h

theorem enqueueBulk_ne_nil {watermark : ℕ} {r : Ring α cap} {xs : List α} (h : r.items ≠ []) :
    (r.enqueueBulk watermark xs).2.items ≠ [] := by
  obtain ⟨x, hx⟩ := List.exists_mem_of_ne_nil _ h
  exact List.ne_nil_of_mem (mem_enqueueBulk hx)

theorem mem_enqueueBulk_self {watermark : ℕ} {r : Ring α cap} {x : α} (hroom : 0 < r.freeCount) :
    x ∈ (r.enqueueBulk watermark [x]).2.items := by
  rw [items_enqueueBulk, if_neg (by rw [List.length_singleton]; omega)]
  exact List.mem_append_right _ (List.mem_singleton_self x)

/-- What is stored is taken by a burst or left by it. -/
theorem mem_dequeueBurst {r : Ring α cap} {x : α} (n : ℕ) (h : x ∈ r.items) :
    x ∈ (r.dequeueBurst n).1 ∨ x ∈ (r.dequeueBurst n).2.items := by
  rw [dequeueBurst_fst, items_dequeueBurst, ← List.mem_append, List.take_append_drop]
  exact h

/-- Objects are refused only when they do not fit. -/
theorem lt_of_nobufs {watermark : ℕ} {r r' : Ring α cap} {xs : List α}
    (hfull : r.enqueueBulk watermark xs = (.nobufs, r')) : r.freeCount < xs.length := by
  unfold enqueueBulk at hfull
  split at hfull
  next hless => exact hless
  next => split at hfull <;> cases hfull

/-- A single object is refused by a full ring only. -/
theorem freeCount_of_nobufs {watermark : ℕ} {r r' : Ring α cap} {x : α}
    (hfull : r.enqueueBulk watermark [x] = (.nobufs, r')) : r.freeCount = 0 :=
  Nat.lt_one_iff.mp (lt_of_nobufs hfull)

/-- Objects that are not refused fit. -/
theorem le_of_queued {watermark : ℕ} {r r' : Ring α cap} {xs : List α} {code : EnqueueCode}
    (hcode : code ≠ .nobufs) (hqueued : r.enqueueBulk watermark xs = (code, r')) :
    xs.length ≤ r.freeCount := by
  by_contra hfull
  unfold enqueueBulk at hqueued
  rw [if_pos (Nat.lt_of_not_le hfull), Prod.mk.injEq] at hqueued
  exact hcode hqueued.1.symm

/-- Objects that are not refused are the last ones. -/
theorem items_of_queued {watermark : ℕ} {r r' : Ring α cap} {xs : List α} {code : EnqueueCode}
    (hcode : code ≠ .nobufs) (hqueued : r.enqueueBulk watermark xs = (code, r')) :
    r'.items = r.items ++ xs := by
  have hitems := items_enqueueBulk watermark r xs
  rw [hqueued, if_neg (Nat.not_lt.mpr (le_of_queued hcode hqueued))] at hitems
  exact hitems

/-- They take their number from the room. -/
theorem freeCount_of_queued {watermark : ℕ} {r r' : Ring α cap} {xs : List α}
    {code : EnqueueCode} (hcode : code ≠ .nobufs)
    (hqueued : r.enqueueBulk watermark xs = (code, r')) :
    r'.freeCount + xs.length = r.freeCount := by
  have hfit := le_of_queued hcode hqueued
  rw [freeCount, items_of_queued hcode hqueued, List.length_append]
  unfold freeCount at hfit ⊢
  omega

end Ring

end IpAugenblick.Lib
