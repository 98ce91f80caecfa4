/-
# Extents

A sequence that is put together piece by piece is held as extents: runs of data, each at its
position.  Extents that are laid out in order without overlapping fill a range exactly when
their lengths add up to it, and then their data one after the other is the range.
-/

import Mathlib.Algebra.Order.Ring.Nat
import Mathlib.Algebra.Order.BigOperators.Group.List

namespace IpAugenblick.Lib

universe u

structure Extent (α : Type u) where
  /-- The position of the first element. -/
  offset : ℕ
  /-- The data from there on. -/
  data : List α
  deriving DecidableEq, Repr

namespace Extent

variable {α : Type u}

def stop (e : Extent α) : ℕ := e.offset + e.data.length

def Has (e : Extent α) (p : ℕ) : Prop := e.offset ≤ p ∧ p < e.stop

/-- What the extent has at a position. -/
def At (e : Extent α) (p : ℕ) (x : α) : Prop := e.offset ≤ p ∧ e.data[p - e.offset]? = some x

/-- The extent without its first `n` elements. -/
def dropFront (e : Extent α) (n : ℕ) : Extent α := ⟨e.offset + n, e.data.drop n⟩

/-- The first `n` elements of the extent. -/
def takeFront (e : Extent α) (n : ℕ) : Extent α := ⟨e.offset, e.data.take n⟩

/-- Some extent has something at a position. -/
def Covers (es : List (Extent α)) (p : ℕ) : Prop := ∃ e ∈ es, e.Has p

def total (es : List (Extent α)) : ℕ := (es.map fun e => e.data.length).sum

/-- The data of the extents, one after the other. -/
def join (es : List (Extent α)) : List α := (es.map data).flatten

/-- Extents in order, none of them empty, none reaching into another. -/
structure Laid (es : List (Extent α)) : Prop where
  nonempty : ∀ e ∈ es, e.data ≠ []
  ordered : es.Pairwise fun a b => a.stop ≤ b.offset

@[simp]
theorem total_nil : total ([] : List (Extent α)) = 0 := rfl

@[simp]
theorem total_cons (e : Extent α) (es : List (Extent α)) :
    total (e :: es) = e.data.length + total es := by simp [total]

@[simp]
theorem total_append (xs ys : List (Extent α)) : total (xs ++ ys) = total xs + total ys := by
  simp [total]

@[simp]
theorem join_nil : join ([] : List (Extent α)) = [] := rfl

@[simp]
theorem join_cons (e : Extent α) (es : List (Extent α)) :
    join (e :: es) = e.data ++ join es := by simp [join]

theorem length_join (es : List (Extent α)) : (join es).length = total es := by
  induction es with
  | nil => rfl
  | cons e es ih => rw [join_cons, List.length_append, ih, total_cons]

@[simp]
theorem offset_dropFront (e : Extent α) (n : ℕ) : (e.dropFront n).offset = e.offset + n := rfl

@[simp]
theorem data_dropFront (e : Extent α) (n : ℕ) : (e.dropFront n).data = e.data.drop n := rfl

theorem stop_dropFront {e : Extent α} {n : ℕ} (h : n ≤ e.data.length) :
    (e.dropFront n).stop = e.stop := by
  simp only [stop, offset_dropFront, data_dropFront, List.length_drop]
  omega

@[simp]
theorem covers_nil (p : ℕ) : ¬ Covers ([] : List (Extent α)) p := by simp [Covers]

@[simp]
theorem covers_cons (e : Extent α) (es : List (Extent α)) (p : ℕ) :
    Covers (e :: es) p ↔ e.Has p ∨ Covers es p := by simp [Covers]

@[simp]
theorem covers_append (xs ys : List (Extent α)) (p : ℕ) :
    Covers (xs ++ ys) p ↔ Covers xs p ∨ Covers ys p := by
  simp only [Covers, List.mem_append, or_and_right, exists_or]

/-- Cutting the front off moves the beginning. -/
theorem has_dropFront {e : Extent α} {n p : ℕ} (h : n ≤ e.data.length) :
    (e.dropFront n).Has p ↔ e.Has p ∧ e.offset + n ≤ p := by
  simp only [Has, stop_dropFront h, offset_dropFront]
  omega

theorem At.has {e : Extent α} {p : ℕ} {x : α} (h : e.At p x) : e.Has p := by
  obtain ⟨hle, hx⟩ := h
  have hlt := (List.getElem?_eq_some_iff.mp hx).1
  exact ⟨hle, by simp only [stop]; omega⟩

theorem exists_at {e : Extent α} {p : ℕ} (h : e.Has p) : ∃ x, e.At p x := by
  obtain ⟨hle, hlt⟩ := h
  have hin : p - e.offset < e.data.length := by
    simp only [stop] at hlt
    omega
  exact ⟨e.data[p - e.offset], hle, List.getElem?_eq_getElem hin⟩

/-- What is left of an extent is where it was. -/
theorem At.of_dropFront {e : Extent α} {n p : ℕ} {x : α} (h : (e.dropFront n).At p x) :
    e.At p x := by
  obtain ⟨hle, hx⟩ := h
  rw [offset_dropFront] at hle hx
  rw [data_dropFront, List.getElem?_drop] at hx
  refine ⟨by omega, ?_⟩
  rw [← hx]
  congr 1
  omega

theorem At.of_takeFront {e : Extent α} {n p : ℕ} {x : α} (h : (e.takeFront n).At p x) :
    e.At p x := by
  obtain ⟨hle, hx⟩ := h
  have hlt := (List.getElem?_eq_some_iff.mp hx).1
  simp only [takeFront, List.length_take, lt_inf_iff] at hlt
  refine ⟨hle, ?_⟩
  rwa [takeFront, List.getElem?_take_of_lt hlt.1] at hx

namespace Laid

variable {es : List (Extent α)}

theorem nil : Laid ([] : List (Extent α)) := ⟨by simp, List.Pairwise.nil⟩

theorem of_cons {e : Extent α} (h : Laid (e :: es)) : Laid es :=
  ⟨fun d hd => h.nonempty d (List.mem_cons_of_mem _ hd), (List.pairwise_cons.mp h.ordered).2⟩

theorem pos {e : Extent α} (h : Laid es) (he : e ∈ es) : 0 < e.data.length :=
  List.length_pos_iff.mpr (h.nonempty e he)

/-- Two laid parts are laid as a whole when the first ends before the second begins. -/
theorem append {xs ys : List (Extent α)} (hx : Laid xs) (hy : Laid ys)
    (h : ∀ a ∈ xs, ∀ b ∈ ys, a.stop ≤ b.offset) : Laid (xs ++ ys) where
  nonempty e he := (List.mem_append.mp he).elim (hx.nonempty e) (hy.nonempty e)
  ordered := List.pairwise_append.mpr ⟨hx.ordered, hy.ordered, h⟩

theorem append_iff {xs ys : List (Extent α)} :
    Laid (xs ++ ys) ↔ Laid xs ∧ Laid ys ∧ ∀ a ∈ xs, ∀ b ∈ ys, a.stop ≤ b.offset := by
  refine ⟨fun h => ?_, fun h => h.1.append h.2.1 h.2.2⟩
  obtain ⟨hx, hy, hxy⟩ := List.pairwise_append.mp h.ordered
  exact ⟨⟨fun e he => h.nonempty e (List.mem_append_left _ he), hx⟩,
    ⟨fun e he => h.nonempty e (List.mem_append_right _ he), hy⟩, hxy⟩

theorem cons {e : Extent α} (hne : e.data ≠ []) (h : Laid es)
    (hle : ∀ b ∈ es, e.stop ≤ b.offset) : Laid (e :: es) where
  nonempty := List.forall_mem_cons.mpr ⟨hne, h.nonempty⟩
  ordered := List.pairwise_cons.mpr ⟨hle, h.ordered⟩

/-- Extents within a range have no more elements than the range. -/
theorem total_le (h : Laid es) {lo hi : ℕ} (hlohi : lo ≤ hi) (hlo : ∀ e ∈ es, lo ≤ e.offset)
    (hhi : ∀ e ∈ es, e.stop ≤ hi) : total es ≤ hi - lo := by
  induction es generalizing lo with
  | nil => simp
  | cons e es ih =>
      have hle := hlo e List.mem_cons_self
      have hstop := hhi e List.mem_cons_self
      have hrest := ih h.of_cons hstop (List.pairwise_cons.mp h.ordered).1
        fun d hd => hhi d (List.mem_cons_of_mem _ hd)
      rw [total_cons]
      simp only [stop] at hstop hrest
      omega

/-- **Filling a range.**  Extents within a range whose lengths add up to it have, one after the
other, at every position what the extent there has. -/
theorem join_of_total (h : Laid es) {lo hi : ℕ} (hlo : ∀ e ∈ es, lo ≤ e.offset)
    (hhi : ∀ e ∈ es, e.stop ≤ hi) (htotal : total es = hi - lo) {p : ℕ} {x : α} (hp : lo ≤ p) :
    (join es)[p - lo]? = some x ↔ ∃ e ∈ es, e.At p x := by
  induction es generalizing lo with
  | nil => simp
  | cons e es ih =>
      have hle := hlo e List.mem_cons_self
      have hstop := hhi e List.mem_cons_self
      have hbehind := (List.pairwise_cons.mp h.ordered).1
      have hrest := h.of_cons.total_le hstop hbehind
        fun d hd => hhi d (List.mem_cons_of_mem _ hd)
      have hstart : e.offset = lo := by
        rw [total_cons] at htotal
        simp only [stop] at hstop hrest
        omega
      have htail : total es = hi - e.stop := by
        rw [total_cons] at htotal
        simp only [stop] at hstop hrest ⊢
        omega
      rw [join_cons, List.exists_mem_cons_iff]
      rcases Nat.lt_or_ge p e.stop with hin | hout
      · have hlt : p - lo < e.data.length := by
          simp only [stop] at hin
          omega
        have hnone : ¬ ∃ d ∈ es, d.At p x := by
          rintro ⟨d, hd, hat, -⟩
          exact absurd (hbehind d hd) (by omega)
        rw [List.getElem?_append_left hlt, or_iff_left hnone, At, hstart]
        exact ⟨fun hx => ⟨hp, hx⟩, And.right⟩
      · have hnot : ¬ e.At p x := fun hat => absurd hat.has.2 (Nat.not_lt.mpr hout)
        have hge : e.data.length ≤ p - lo := by
          simp only [stop] at hout
          omega
        have hindex : p - lo - e.data.length = p - e.stop := by
          simp only [stop]
          omega
        rw [List.getElem?_append_right hge, or_iff_right hnot, hindex]
        exact ih h.of_cons hbehind (fun d hd => hhi d (List.mem_cons_of_mem _ hd)) htail hout

/-- Extents that leave no gap in a range have as many elements as the range. -/
theorem total_of_covers (h : Laid es) {lo hi : ℕ} (hlohi : lo ≤ hi)
    (hlo : ∀ e ∈ es, lo ≤ e.offset) (hhi : ∀ e ∈ es, e.stop ≤ hi)
    (hall : ∀ p, lo ≤ p → p < hi → Covers es p) : total es = hi - lo := by
  induction es generalizing lo with
  | nil =>
      by_contra hne
      exact covers_nil lo (hall lo le_rfl (by simp at hne; omega))
  | cons e es ih =>
      have hle := hlo e List.mem_cons_self
      have hstop := hhi e List.mem_cons_self
      have hpos := h.pos List.mem_cons_self
      have hbehind := (List.pairwise_cons.mp h.ordered).1
      have hstart : e.offset = lo := by
        have hlt : lo < hi := by simp only [stop] at hstop; omega
        obtain ⟨d, hd, hd1, -⟩ := hall lo le_rfl hlt
        rcases List.mem_cons.mp hd with rfl | hd
        · omega
        · have hafter := hbehind d hd
          simp only [stop] at hafter
          omega
      have hrest : total es = hi - e.stop := by
        refine ih h.of_cons hstop hbehind (fun d hd => hhi d (List.mem_cons_of_mem _ hd)) ?_
        intro p hp hlt
        have hcov := hall p (by simp only [stop] at hp; omega) hlt
        rw [covers_cons] at hcov
        exact hcov.resolve_left fun hhas => absurd hhas.2 (Nat.not_lt.mpr hp)
      rw [total_cons, hrest]
      simp only [stop] at hstop ⊢
      omega

/-- Extents whose lengths add up to a range leave no gap in it. -/
theorem covers_of_total (h : Laid es) {lo hi : ℕ} (hlo : ∀ e ∈ es, lo ≤ e.offset)
    (hhi : ∀ e ∈ es, e.stop ≤ hi) (htotal : total es = hi - lo) {p : ℕ} (hp : lo ≤ p)
    (hlt : p < hi) : Covers es p := by
  have hin : p - lo < (join es).length := by
    rw [length_join, htotal]
    omega
  obtain ⟨e, he, hat⟩ := (h.join_of_total hlo hhi htotal hp).mp (List.getElem?_eq_getElem hin)
  exact ⟨e, he, hat.has⟩

end Laid

end Extent

end IpAugenblick.Lib
