/-
# Tail queues

The `TAILQ` of `sys/queue.h`: a doubly linked list whose nodes point back to the
pointer that points at them, so that a node can be taken out without knowing which
list it is in.  Several heads share one set of nodes.

`Holds q h xs` says that the list of the head `h` is `xs`.  Inserting and removing
act on it as on a list, and leave alone the lists that have none of its nodes.  A
node whose entry was zeroed has no pointer to go back to, and removing it is a
store through null.
-/

import IpAugenblick.Lib.Linked

namespace IpAugenblick.Lib

universe u v

variable {σ : Type u} {ι : Type v}

/-- The address of a pointer: `tqh_first` of a head or `tqe_next` of a node. -/
inductive TqLink (σ : Type u) (ι : Type v)
  | first (h : σ)
  | next (x : ι)
  deriving DecidableEq, Repr

/-- The heads and the entries of all nodes. -/
structure TailQueues (σ : Type u) (ι : Type v) where
  first : σ → Option ι
  last : σ → TqLink σ ι
  next : ι → Option ι
  /-- `tqe_prev`; `none` is null. -/
  prev : ι → Option (TqLink σ ι)

namespace TailQueues

/-- `TAILQ_INIT` of every head, with zeroed entries. -/
def init : TailQueues σ ι where
  first _ := none
  last h := .first h
  next _ := none
  prev _ := none

def read (q : TailQueues σ ι) : TqLink σ ι → Option ι
  | .first h => q.first h
  | .next x => q.next x

section Operations

variable [DecidableEq σ] [DecidableEq ι] (q : TailQueues σ ι)

def store : TqLink σ ι → Option ι → TailQueues σ ι
  | .first h, p => { q with first := Function.update q.first h p }
  | .next x, p => { q with next := Function.update q.next x p }

/-- `TAILQ_INSERT_TAIL`. -/
def insertTail (h : σ) (x : ι) : TailQueues σ ι :=
  let entered := { q with
    next := Function.update q.next x none
    prev := Function.update q.prev x (some (q.last h)) }
  let linked := entered.store (q.last h) (some x)
  { linked with last := Function.update linked.last h (.next x) }

/-- `TAILQ_REMOVE`; `none` is a store through null. -/
def remove (h : σ) (x : ι) : Option (TailQueues σ ι) :=
  match q.prev x with
  | none => none
  | some back =>
      let unlinked := match q.next x with
        | some y => { q with prev := Function.update q.prev y (some back) }
        | none => { q with last := Function.update q.last h back }
      some (unlinked.store back (q.next x))

/-- `memset` of the entry of a node. -/
def zero (x : ι) : TailQueues σ ι :=
  { q with next := Function.update q.next x none, prev := Function.update q.prev x none }

end Operations

/-! ## The list of a head -/

variable {q q' : TailQueues σ ι} {a b c : TqLink σ ι} {x y : ι} {xs ys : List ι} {h k : σ}

/-- From the pointer at `a`, the nodes `xs` come, each pointing back to the pointer at
it; the pointer behind them is at `b`. -/
def Seg (q : TailQueues σ ι) : TqLink σ ι → List ι → TqLink σ ι → Prop
  | a, [], b => a = b
  | a, x :: xs, b => q.read a = some x ∧ q.prev x = some a ∧ Seg q (.next x) xs b

/-- The addresses of the pointers at the nodes. -/
def pointers : TqLink σ ι → List ι → List (TqLink σ ι)
  | _, [] => []
  | a, x :: xs => a :: pointers (.next x) xs

/-- The list of the head `h` is `xs`. -/
structure Holds (q : TailQueues σ ι) (h : σ) (xs : List ι) : Prop where
  nodup : xs.Nodup
  seg : q.Seg (.first h) xs (q.last h)
  ended : q.read (q.last h) = none

theorem mem_pointers (hc : c ∈ pointers a xs) : c = a ∨ ∃ y ∈ xs, c = .next y := by
  induction xs generalizing a with
  | nil => cases hc
  | cons x xs ih =>
      rcases List.mem_cons.mp hc with rfl | hc
      · exact .inl rfl
      · rcases ih hc with rfl | ⟨y, hy, rfl⟩
        · exact .inr ⟨x, by simp, rfl⟩
        · exact .inr ⟨y, by simp [hy], rfl⟩

theorem Seg.congr (hseg : q.Seg a xs b) (hread : ∀ c ∈ pointers a xs, q'.read c = q.read c)
    (hprev : ∀ y ∈ xs, q'.prev y = q.prev y) : q'.Seg a xs b := by
  induction xs generalizing a with
  | nil => exact hseg
  | cons x xs ih =>
      obtain ⟨hx, hback, htail⟩ := hseg
      refine ⟨?_, by rw [hprev x (by simp), hback], ?_⟩
      · rw [hread a (by simp [pointers]), hx]
      · exact ih htail (fun c hc => hread c (by simp [pointers, hc]))
          fun y hy => hprev y (by simp [hy])

theorem seg_append : q.Seg a (xs ++ ys) c ↔ ∃ b, q.Seg a xs b ∧ q.Seg b ys c := by
  induction xs generalizing a with
  | nil =>
      constructor
      · exact fun h => ⟨a, rfl, h⟩
      · rintro ⟨b, rfl, h⟩
        exact h
  | cons x xs ih =>
      simp only [List.cons_append, Seg, ih]
      constructor
      · rintro ⟨hx, hback, b, hxs, hys⟩
        exact ⟨b, ⟨hx, hback, hxs⟩, hys⟩
      · rintro ⟨b, ⟨hx, hback, hxs⟩, hys⟩
        exact ⟨hx, hback, b, hxs, hys⟩

/-- The pointer behind the nodes is the one at their start or the one of a node, and
none of those at the nodes. -/
theorem Seg.end_cases (hseg : q.Seg a xs b) (hnodup : xs.Nodup)
    (hout : ∀ y ∈ xs, a ≠ .next y) :
    (b = a ∨ ∃ y ∈ xs, b = .next y) ∧ b ∉ pointers a xs := by
  induction xs generalizing a with
  | nil =>
      obtain rfl := hseg
      exact ⟨.inl rfl, by simp [pointers]⟩
  | cons x xs ih =>
      obtain ⟨hx, hxs⟩ := List.nodup_cons.mp hnodup
      obtain ⟨hend, hfresh⟩ := ih hseg.2.2 hxs fun y hy heq => by
        cases heq
        exact hx hy
      have hb : ∃ y ∈ x :: xs, b = .next y := by
        rcases hend with rfl | ⟨y, hy, rfl⟩
        · exact ⟨x, by simp, rfl⟩
        · exact ⟨y, by simp [hy], rfl⟩
      refine ⟨.inr hb, ?_⟩
      obtain ⟨y, hy, rfl⟩ := hb
      simp only [pointers, List.mem_cons, not_or]
      exact ⟨(hout y hy).symm, hfresh⟩

/-- The nodes are what a walk along `next` visits. -/
theorem Seg.linked (hseg : q.Seg a xs b) (hended : q.read b = none) :
    Linked q.next (q.read a) xs := by
  induction xs generalizing a with
  | nil =>
      obtain rfl := hseg
      exact hended
  | cons x xs ih => exact ⟨hseg.1, ih hseg.2.2⟩

theorem Holds.init (h : σ) : (init : TailQueues σ ι).Holds h [] where
  nodup := List.nodup_nil
  seg := rfl
  ended := rfl

theorem Holds.linked (hq : q.Holds h xs) : Linked q.next (q.first h) xs := hq.seg.linked hq.ended

theorem Holds.last_cases (hq : q.Holds h xs) :
    (q.last h = .first h ∨ ∃ y ∈ xs, q.last h = .next y) ∧
      q.last h ∉ pointers (.first h) xs :=
  hq.seg.end_cases hq.nodup fun _ _ heq => by cases heq

/-- The list of a head that shares no node with a change stays. -/
theorem Holds.congr (hq : q.Holds h xs) (hfirst : q'.first h = q.first h)
    (hlast : q'.last h = q.last h) (hnext : ∀ y ∈ xs, q'.next y = q.next y)
    (hprev : ∀ y ∈ xs, q'.prev y = q.prev y) : q'.Holds h xs := by
  have hread : ∀ c, c = .first h ∨ (∃ y ∈ xs, c = .next y) → q'.read c = q.read c := by
    rintro c (rfl | ⟨y, hy, rfl⟩)
    · exact hfirst
    · exact hnext y hy
  exact
    { nodup := hq.nodup
      seg := by
        rw [hlast]
        exact hq.seg.congr (fun c hc => hread c (mem_pointers hc)) hprev
      ended := by
        rw [hlast, hread _ hq.last_cases.1]
        exact hq.ended }

/-- Where a node of a list is, and what surrounds it. -/
theorem Holds.split (hq : q.Holds h xs) (hx : x ∈ xs) :
    ∃ pre post back, xs = pre ++ x :: post ∧ x ∉ pre ∧ x ∉ post ∧ (∀ y ∈ pre, y ∉ post) ∧
      pre.Nodup ∧ post.Nodup ∧ q.prev x = some back ∧ q.Seg (.first h) pre back ∧
      q.Seg (.next x) post (q.last h) ∧ (back = .first h ∨ ∃ y ∈ pre, back = .next y) ∧
      back ∉ pointers (.first h) pre := by
  obtain ⟨pre, post, rfl⟩ := List.append_of_mem hx
  obtain ⟨hpre, hpost, hdisjoint⟩ := List.nodup_append.mp hq.nodup
  obtain ⟨hxpost, hpost⟩ := List.nodup_cons.mp hpost
  obtain ⟨back, hfront, -, hback, hrest⟩ := seg_append.mp hq.seg
  obtain ⟨hend, hfresh⟩ := hfront.end_cases hpre fun _ _ heq => by cases heq
  refine ⟨pre, post, back, rfl, fun hmem => hdisjoint x hmem x (by simp) rfl, hxpost, ?_, hpre,
    hpost, hback, hfront, hrest, hend, hfresh⟩
  exact fun y hy hmem => hdisjoint y hy y (by simp [hmem]) rfl

/-! ## The operations -/

variable [DecidableEq σ] [DecidableEq ι]

theorem read_store (a b : TqLink σ ι) (p : Option ι) :
    (q.store a p).read b = if b = a then p else q.read b := by
  cases a with
  | first h =>
      cases b with
      | first k => by_cases hk : k = h <;> simp [store, read, hk]
      | next y => simp [store, read]
  | next x =>
      cases b with
      | first k => simp [store, read]
      | next y => by_cases hy : y = x <;> simp [store, read, hy]

theorem read_store_of_ne (p : Option ι) (hne : b ≠ a) : (q.store a p).read b = q.read b := by
  rw [read_store, if_neg hne]

theorem prev_store (a : TqLink σ ι) (p : Option ι) : (q.store a p).prev = q.prev := by
  cases a with
  | first h => rfl
  | next x => rfl

theorem last_store (a : TqLink σ ι) (p : Option ι) : (q.store a p).last = q.last := by
  cases a with
  | first h => rfl
  | next x => rfl

theorem read_insertTail (c : TqLink σ ι) :
    (q.insertTail h x).read c =
      if c = q.last h then some x else if c = .next x then none else q.read c := by
  have hstored : (q.insertTail h x).read c = (({ q with
      next := Function.update q.next x none
      prev := Function.update q.prev x (some (q.last h)) }).store (q.last h) (some x)).read c := by
    cases c with
    | first k => rfl
    | next y => rfl
  rw [hstored, read_store]
  congr 1
  cases c with
  | first k => simp [read]
  | next y => by_cases hy : y = x <;> simp [read, hy]

theorem prev_insertTail (h : σ) (x : ι) :
    (q.insertTail h x).prev = Function.update q.prev x (some (q.last h)) := by
  unfold insertTail
  dsimp only
  rw [prev_store]

theorem last_insertTail (h : σ) (x : ι) :
    (q.insertTail h x).last = Function.update q.last h (.next x) := by
  unfold insertTail
  dsimp only
  rw [last_store]

/-- **Insert.**  The node comes last in its list. -/
theorem Holds.insertTail (hq : q.Holds h xs) (hx : x ∉ xs) :
    (q.insertTail h x).Holds h (xs ++ [x]) := by
  obtain ⟨hlast, hfresh⟩ := hq.last_cases
  have hne : TqLink.next x ≠ q.last h := by
    rcases hlast with heq | ⟨y, hy, heq⟩
    · rw [heq]
      simp
    · rw [heq]
      rintro ⟨⟩
      exact hx hy
  exact
    { nodup := List.concat_eq_append ▸ hq.nodup.concat hx
      seg := by
        rw [last_insertTail, Function.update_self]
        refine seg_append.mpr ⟨q.last h, hq.seg.congr ?_ ?_, ?_, ?_, rfl⟩
        · intro c hc
          have hother : c ≠ .next x := by
            rcases mem_pointers hc with rfl | ⟨y, hy, rfl⟩
            · simp
            · rintro ⟨⟩
              exact hx hy
          rw [read_insertTail, if_neg (ne_of_mem_of_not_mem hc hfresh), if_neg hother]
        · intro y hy
          rw [prev_insertTail, Function.update_of_ne (ne_of_mem_of_not_mem hy hx)]
        · rw [read_insertTail, if_pos rfl]
        · rw [prev_insertTail, Function.update_self]
      ended := by
        rw [last_insertTail, Function.update_self, read_insertTail, if_neg hne, if_pos rfl] }

/-- The other lists do not notice. -/
theorem Holds.insertTail_other (hq : q.Holds h xs) (hk : k ≠ h) (hys : q.Holds k ys)
    (hx : x ∉ ys) (hdisjoint : ∀ y ∈ ys, y ∉ xs) : (q.insertTail h x).Holds k ys := by
  have hlast := hq.last_cases.1
  refine hys.congr ?_ ?_ ?_ ?_
  · show (q.insertTail h x).read (.first k) = q.read (.first k)
    have hne : TqLink.first k ≠ q.last h := by
      rcases hlast with heq | ⟨y, -, heq⟩
      · rw [heq]
        rintro ⟨⟩
        exact hk rfl
      · rw [heq]
        simp
    rw [read_insertTail, if_neg hne, if_neg (by simp)]
  · rw [last_insertTail, Function.update_of_ne hk]
  · intro y hy
    show (q.insertTail h x).read (.next y) = q.read (.next y)
    have hne : TqLink.next y ≠ q.last h := by
      rcases hlast with heq | ⟨z, hz, heq⟩
      · rw [heq]
        simp
      · rw [heq]
        rintro ⟨⟩
        exact hdisjoint y hy hz
    have hself : TqLink.next y ≠ (.next x : TqLink σ ι) := by
      rintro ⟨⟩
      exact hx hy
    rw [read_insertTail, if_neg hne, if_neg hself]
  · intro y hy
    rw [prev_insertTail, Function.update_of_ne (ne_of_mem_of_not_mem hy hx)]

/-- **Remove.**  The node leaves its list, and no other list notices. -/
theorem Holds.remove (hq : q.Holds h xs) (hx : x ∈ xs) :
    ∃ q', q.remove h x = some q' ∧ q'.Holds h (xs.erase x) ∧
      ∀ k ys, k ≠ h → q.Holds k ys → (∀ y ∈ ys, y ∉ xs) → q'.Holds k ys := by
  have hended := hq.ended
  obtain ⟨pre, post, back, rfl, hxpre, hxpost, hdisjoint, hpre, hpost, hback, hfront, hrest, hend,
    hfresh⟩ := hq.split hx
  have herase : (pre ++ x :: post).erase x = pre ++ post := by
    rw [List.erase_append_right _ hxpre, List.erase_cons_head]
  have hforeign : ∀ (k : σ) (ys : List ι), k ≠ h → (∀ y ∈ ys, y ∉ pre ++ x :: post) →
      TqLink.first k ≠ back ∧ ∀ y ∈ ys, TqLink.next y ≠ back := by
    intro k ys hk hys
    rcases hend with rfl | ⟨z, hz, rfl⟩
    · exact ⟨fun heq => hk (by cases heq; rfl), fun y _ => by simp⟩
    · refine ⟨by simp, fun y hy heq => ?_⟩
      obtain rfl : y = z := TqLink.next.inj heq
      exact hys y hy (List.mem_append_left _ hz)
  unfold TailQueues.remove
  rw [hback, herase]
  refine ⟨_, rfl, ?_, ?_⟩
  · cases post with
    | nil =>
        have hlast : q.last h = .next x := hrest.symm
        have hnext : q.next x = none := by
          rw [hlast] at hended
          exact hended
        rw [hnext, List.append_nil]
        refine ⟨hpre, ?_, ?_⟩
        · rw [last_store]
          dsimp only
          rw [Function.update_self]
          refine hfront.congr (fun c hc => ?_) fun y _ => by rw [prev_store]
          rw [read_store_of_ne _ (ne_of_mem_of_not_mem hc hfresh)]
          cases c with
          | first k => rfl
          | next y => rfl
        · rw [last_store]
          dsimp only
          rw [Function.update_self, read_store, if_pos rfl]
    | cons y post =>
        obtain ⟨hnext, -, htail⟩ := hrest
        replace hnext : q.next x = some y := hnext
        obtain ⟨hypost, hpost⟩ := List.nodup_cons.mp hpost
        have hypre : y ∉ pre := fun hmem => hdisjoint y hmem (by simp)
        obtain ⟨hlast, -⟩ := htail.end_cases hpost fun z hz heq => by
          cases heq
          exact hypost hz
        have hbehind : ∀ z ∈ y :: post, TqLink.next z ≠ back := by
          intro z hz heq
          rcases hend with rfl | ⟨w, hw, rfl⟩
          · cases heq
          · cases heq
            exact hdisjoint z hw hz
        rw [hnext]
        dsimp only
        refine ⟨?_, ?_, ?_⟩
        · refine List.nodup_append.mpr ⟨hpre, List.nodup_cons.mpr ⟨hypost, hpost⟩, ?_⟩
          rintro z hz w hw rfl
          exact hdisjoint z hz hw
        · rw [last_store]
          refine seg_append.mpr ⟨back, hfront.congr (fun c hc => ?_) (fun z hz => ?_), ?_, ?_, ?_⟩
          · rw [read_store_of_ne _ (ne_of_mem_of_not_mem hc hfresh)]
            cases c with
            | first k => rfl
            | next y => rfl
          · rw [prev_store]
            exact Function.update_of_ne (ne_of_mem_of_not_mem hz hypre) _ _
          · rw [read_store, if_pos rfl]
          · rw [prev_store]
            exact Function.update_self _ _ _
          · refine htail.congr (fun c hc => ?_) fun z hz => ?_
            · obtain ⟨z, hz, rfl⟩ : ∃ z ∈ y :: post, c = .next z := by
                rcases mem_pointers hc with rfl | ⟨z, hz, rfl⟩
                · exact ⟨y, by simp, rfl⟩
                · exact ⟨z, by simp [hz], rfl⟩
              rw [read_store_of_ne _ (hbehind z hz)]
              rfl
            · rw [prev_store]
              exact Function.update_of_ne (ne_of_mem_of_not_mem hz hypost) _ _
        · rw [last_store]
          obtain ⟨z, hz, heq⟩ : ∃ z ∈ y :: post, q.last h = .next z := by
            rcases hlast with heq | ⟨z, hz, heq⟩
            · exact ⟨y, by simp, heq⟩
            · exact ⟨z, by simp [hz], heq⟩
          dsimp only
          rw [heq] at hended ⊢
          rw [read_store_of_ne _ (hbehind z hz)]
          exact hended
  · intro k ys hk hys hother
    obtain ⟨hfirst, hnexts⟩ := hforeign k ys hk hother
    refine hys.congr ?_ ?_ ?_ ?_
    · refine (read_store_of_ne _ hfirst).trans ?_
      cases q.next x with
      | none => rfl
      | some y => rfl
    · rw [last_store]
      cases q.next x with
      | none => exact Function.update_of_ne hk _ _
      | some y => rfl
    · intro y hy
      refine (read_store_of_ne _ (hnexts y hy)).trans ?_
      cases q.next x with
      | none => rfl
      | some y => rfl
    · intro y hy
      rw [prev_store]
      cases post with
      | nil =>
          have hlast : q.last h = .next x := hrest.symm
          have hnext : q.next x = none := by
            rw [hlast] at hended
            exact hended
          rw [hnext]
      | cons z post =>
          have hnext : q.next x = some z := hrest.1
          rw [hnext]
          refine Function.update_of_ne (fun heq => hother y hy ?_) _ _
          simp [heq]

omit [DecidableEq σ] in
/-- A zeroed entry of a node that is in no list. -/
theorem Holds.zero (hq : q.Holds h xs) (hx : x ∉ xs) : (q.zero x).Holds h xs := by
  refine hq.congr rfl rfl ?_ ?_
  · intro y hy
    exact Function.update_of_ne (ne_of_mem_of_not_mem hy hx) _ _
  · intro y hy
    exact Function.update_of_ne (ne_of_mem_of_not_mem hy hx) _ _

end TailQueues

end IpAugenblick.Lib
