/-
# What the trie keeps

Below each slot of a node are the keys with the node's prefix and the number of the slot behind
it, the counters of the node count, and no node has less than two children.  `inflate`, `halve`
and `resize` keep this, and whatever they do and wherever memory runs out, the leaves from left
to right stay the same.
-/

import IpAugenblick.Lib.Slots
import IpAugenblick.Route.Trie

namespace IpAugenblick.FibTrie

open Lib Lib.BitKey Lib.Slots

universe u

variable {α : Type u} {tn old : Tnode α} {h : TnodeHead} {n x y : Node α} {key : TKey}
  {child : ℕ → Node α} {pos bits i j k q : ℕ}

/-- A node looks at nothing in front of a position. -/
def Node.From (q : ℕ) : Node α → Prop
  | .tnode head _ => q ≤ head.pos
  | _ => True

/-- What is below slot `i` of a node with this key, position and number of bits. -/
structure FitsIn (key : TKey) (pos bits i : ℕ) (n : Node α) : Prop where
  keys : ∀ l ∈ n.leaves, Agree l.1 key pos ∧ field l.1 pos bits = i
  behind : n.From (pos + bits)

/-- The counters count. -/
structure Tnode.Counted (tn : Tnode α) : Prop where
  empty : tn.emptyChildren = marked Node.isNull tn.child (2 ^ tn.bits)
  full : tn.fullChildren = marked tn.tnodeFull tn.child (2 ^ tn.bits)

/-- What holds of a node and all nodes below it between two updates. -/
def Node.Kept : Node α → Prop
  | .null => True
  | .leaf _ _ => True
  | .tnode head child =>
      (0 < head.bits ∧ head.pos + head.bits ≤ 32 ∧ (Tnode.mk head child).Counted) ∧
        head.emptyChildren + 2 ≤ 2 ^ head.bits ∧
        ∀ i < 2 ^ head.bits, FitsIn head.key head.pos head.bits i (child i) ∧ (child i).Kept

/-- What holds of a node that is being worked on: it may have too few children. -/
structure Tnode.Ok (tn : Tnode α) : Prop where
  bits_pos : 0 < tn.bits
  within : tn.pos + tn.bits ≤ 32
  counted : tn.Counted
  fits : ∀ i < 2 ^ tn.bits, FitsIn tn.key tn.pos tn.bits i (tn.child i)
  kept : ∀ i < 2 ^ tn.bits, (tn.child i).Kept

theorem kept_tnode : (Node.tnode h child).Kept ↔
    (Tnode.mk h child).Ok ∧ h.emptyChildren + 2 ≤ 2 ^ h.bits := by
  constructor
  · rintro ⟨⟨hbits, hwithin, hcounted⟩, hdense, hslots⟩
    exact ⟨⟨hbits, hwithin, hcounted, fun i hi => (hslots i hi).1, fun i hi => (hslots i hi).2⟩,
      hdense⟩
  · rintro ⟨hok, hdense⟩
    exact ⟨⟨hok.bits_pos, hok.within, hok.counted⟩, hdense,
      fun i hi => ⟨hok.fits i hi, hok.kept i hi⟩⟩

theorem kept_node : tn.node.Kept ↔ tn.Ok ∧ tn.emptyChildren + 2 ≤ 2 ^ tn.bits := kept_tnode

@[simp]
theorem leaves_null : (Node.null : Node α).leaves = [] := rfl

theorem leaves_node (tn : Tnode α) :
    tn.node.leaves = (List.range (2 ^ tn.bits)).flatMap fun i => (tn.child i).leaves := rfl

theorem mem_leaves_tnode {l : TKey × α} :
    l ∈ (Node.tnode h child).leaves ↔ ∃ i < 2 ^ h.bits, l ∈ (child i).leaves := by
  rw [Node.leaves, List.mem_flatMap]
  simp only [List.mem_range]

theorem mem_leaves_node {l : TKey × α} :
    l ∈ tn.node.leaves ↔ ∃ i < 2 ^ tn.bits, l ∈ (tn.child i).leaves := mem_leaves_tnode

theorem Node.From.mono (hn : n.From q) (hle : k ≤ q) : n.From k := by
  cases n with
  | null | leaf => trivial
  | tnode head child => exact hle.trans hn

theorem fitsIn_null : FitsIn key pos bits i (Node.null : Node α) := ⟨nofun, trivial⟩

/-- A node is there exactly when a leaf is below it. -/
theorem Node.Kept.leaves_eq_nil_iff (hn : n.Kept) : n.leaves = [] ↔ n.isNull = true := by
  induction n with
  | null => exact ⟨fun _ => rfl, fun _ => rfl⟩
  | leaf key list => exact ⟨nofun, nofun⟩
  | tnode head child ih =>
      obtain ⟨hok, hdense⟩ := kept_tnode.mp hn
      rw [hok.counted.empty] at hdense
      obtain ⟨i, j, hij, hj, hi, -⟩ := marked_add_two_le.mp hdense
      refine ⟨fun hnil => ?_, nofun⟩
      have hempty := List.flatMap_eq_nil_iff.mp hnil i (List.mem_range.mpr (hij.trans hj))
      have hnull := (ih i (hok.kept i (hij.trans hj))).mp hempty
      rw [hnull] at hi
      cases hi

theorem Node.Kept.exists_leaf (hn : n.Kept) (hthere : n.isNull = false) : ∃ l, l ∈ n.leaves := by
  apply List.exists_mem_of_ne_nil
  intro hnil
  rw [hn.leaves_eq_nil_iff.mp hnil] at hthere
  cases hthere

/-- All keys below a node have its prefix. -/
theorem Tnode.Ok.agree (hok : tn.Ok) {l : TKey × α} (hl : l ∈ tn.node.leaves) :
    Agree l.1 tn.key tn.pos := by
  obtain ⟨i, hi, hmem⟩ := mem_leaves_node.mp hl
  exact ((hok.fits i hi).keys l hmem).1

/-- Where all keys below a node agree, its own key does as well. -/
theorem Node.Kept.agree_key (hn : n.Kept) (hfrom : n.From q) {l : TKey × α} (hl : l ∈ n.leaves) :
    Agree l.1 n.key q := by
  cases n with
  | null => cases hl
  | leaf k list =>
      rw [List.mem_singleton.mp hl]
      exact Agree.refl k q
  | tnode head child =>
      have hok := (kept_tnode.mp hn).1
      exact (hok.agree hl).mono hfrom

/-- The key of a child has the number of its slot. -/
theorem FitsIn.own_key (hfits : FitsIn key pos bits i n) (hn : n.Kept) (hthere : n.isNull = false) :
    Agree n.key key pos ∧ field n.key pos bits = i := by
  obtain ⟨l, hl⟩ := hn.exists_leaf hthere
  obtain ⟨hagree, hfield⟩ := hfits.keys l hl
  have hown := hn.agree_key hfits.behind hl
  exact ⟨(hown.mono (Nat.le_add_right _ _)).symm.trans hagree,
    (hown.field_eq le_rfl).symm.trans hfield⟩

@[simp]
theorem tnodeNew_key (key : TKey) (pos bits : ℕ) :
    (tnodeNew key pos bits : Tnode α).key = key := rfl

@[simp]
theorem tnodeNew_pos (key : TKey) (pos bits : ℕ) :
    (tnodeNew key pos bits : Tnode α).pos = pos := rfl

@[simp]
theorem tnodeNew_bits (key : TKey) (pos bits : ℕ) :
    (tnodeNew key pos bits : Tnode α).bits = bits := rfl

theorem tnodeNew_counted (key : TKey) (pos bits : ℕ) :
    (tnodeNew key pos bits : Tnode α).Counted where
  empty := (marked_eq_iff.mpr fun _ _ => rfl).symm
  full := by
    have hnone : ∀ n, marked (tnodeNew key pos bits : Tnode α).tnodeFull
        (tnodeNew key pos bits : Tnode α).child n = 0 := by
      intro n
      induction n with
      | zero => rfl
      | succ n ih => rw [marked_succ, ih]; rfl
    exact (hnone _).symm

theorem Tnode.Counted.putChild (hc : tn.Counted) (hi : i < 2 ^ tn.bits) (n : Node α) :
    (tn.putChild i n).Counted where
  empty := by
    have hcount := marked_update (p := Node.isNull) (c := tn.child) hi n
    rw [← hc.empty] at hcount
    change (if n.isNull && !(tn.child i).isNull then tn.emptyChildren + 1
      else if !n.isNull && (tn.child i).isNull then tn.emptyChildren - 1
      else tn.emptyChildren) = marked Node.isNull (Function.update tn.child i n) (2 ^ tn.bits)
    cases hn : n.isNull <;> cases ho : (tn.child i).isNull <;>
      simp only [hn, ho, Bool.toNat_true, Bool.toNat_false, Bool.not_true, Bool.not_false,
        Bool.and_true, Bool.and_false, if_true, Bool.false_eq_true, if_false] at hcount ⊢ <;> omega
  full := by
    have hcount := marked_update (p := tn.tnodeFull) (c := tn.child) hi n
    rw [← hc.full] at hcount
    change (if tn.tnodeFull (tn.child i) && !tn.tnodeFull n then tn.fullChildren - 1
      else if !tn.tnodeFull (tn.child i) && tn.tnodeFull n then tn.fullChildren + 1
      else tn.fullChildren) = marked tn.tnodeFull (Function.update tn.child i n) (2 ^ tn.bits)
    cases hn : tn.tnodeFull n <;> cases ho : tn.tnodeFull (tn.child i) <;>
      simp only [hn, ho, Bool.toNat_true, Bool.toNat_false, Bool.not_true, Bool.not_false,
        Bool.and_true, Bool.and_false, if_true, Bool.false_eq_true, if_false] at hcount ⊢ <;> omega

@[simp]
theorem putChild_key (tn : Tnode α) (i : ℕ) (n : Node α) : (tn.putChild i n).key = tn.key := rfl

@[simp]
theorem putChild_pos (tn : Tnode α) (i : ℕ) (n : Node α) : (tn.putChild i n).pos = tn.pos := rfl

@[simp]
theorem putChild_bits (tn : Tnode α) (i : ℕ) (n : Node α) : (tn.putChild i n).bits = tn.bits := rfl

theorem putChild_child (tn : Tnode α) (i : ℕ) (n : Node α) :
    (tn.putChild i n).child = Function.update tn.child i n := rfl

@[simp]
theorem putChild_child_self (tn : Tnode α) (i : ℕ) (n : Node α) :
    (tn.putChild i n).child i = n := by
  rw [putChild_child, Function.update_self]

theorem putChild_child_of_ne (tn : Tnode α) (n : Node α) (hne : j ≠ i) :
    (tn.putChild i n).child j = tn.child j := by
  rw [putChild_child, Function.update_of_ne hne]

/-- A node that fits is put into a slot. -/
theorem Tnode.Ok.putChild (hok : tn.Ok) (hi : i < 2 ^ tn.bits)
    (hfits : FitsIn tn.key tn.pos tn.bits i n) (hn : n.Kept) : (tn.putChild i n).Ok where
  bits_pos := hok.bits_pos
  within := hok.within
  counted := hok.counted.putChild hi n
  fits j hj := by
    by_cases hji : j = i
    · rw [hji, putChild_child_self]
      exact hfits
    · rw [putChild_child_of_ne _ _ hji]
      exact hok.fits j hj
  kept j hj := by
    by_cases hji : j = i
    · rw [hji, putChild_child_self]
      exact hn
    · rw [putChild_child_of_ne _ _ hji]
      exact hok.kept j hj

/-- What the leaves of a node are when a slot is written. -/
theorem leaves_putChild (hi : i < 2 ^ tn.bits) (n : Node α) :
    (tn.putChild i n).node.leaves =
      (List.range i).flatMap (fun j => (tn.child j).leaves) ++ n.leaves ++
        (List.range' (i + 1) (2 ^ tn.bits - (i + 1))).flatMap fun j => (tn.child j).leaves :=
  flatMap_range_update hi Node.leaves n

@[simp]
theorem putChildren_key (tn : Tnode α) (child : ℕ → Node α) (q k : ℕ) :
    (tn.putChildren child q k).key = tn.key := by
  induction k with
  | zero => rfl
  | succ k ih => exact ih

@[simp]
theorem putChildren_pos (tn : Tnode α) (child : ℕ → Node α) (q k : ℕ) :
    (tn.putChildren child q k).pos = tn.pos := by
  induction k with
  | zero => rfl
  | succ k ih => exact ih

@[simp]
theorem putChildren_bits (tn : Tnode α) (child : ℕ → Node α) (q k : ℕ) :
    (tn.putChildren child q k).bits = tn.bits := by
  induction k with
  | zero => rfl
  | succ k ih => exact ih

theorem Tnode.Counted.putChildren (hc : tn.Counted) (child : ℕ → Node α) (q : ℕ)
    (hk : k ≤ 2 ^ tn.bits) : (tn.putChildren child q k).Counted := by
  induction k with
  | zero => exact hc
  | succ k ih =>
      apply (ih (Nat.le_of_succ_le hk)).putChild
      rw [putChildren_bits]
      exact hk

theorem putChildren_child (tn : Tnode α) (child : ℕ → Node α) (q : ℕ) (hj : j < k) :
    (tn.putChildren child q k).child j = child (j + q) := by
  induction k with
  | zero => exact absurd hj (Nat.not_lt_zero j)
  | succ k ih =>
      rw [Tnode.putChildren]
      rcases Nat.lt_succ_iff_lt_or_eq.mp hj with hlt | rfl
      · rw [putChild_child_of_ne _ _ (Nat.ne_of_lt hlt)]
        exact ih hlt
      · rw [putChild_child_self]

/-- The single bit that `inflate` sets or clears. -/
theorem getMsbD_mask (hpos : pos < 32) (p : ℕ) :
    ((~~~(0 : TKey) <<< 31) >>> pos).getMsbD p = decide (p = pos) := by
  have hone : ~~~(0 : TKey) <<< 31 = BitVec.twoPow 32 31 := by decide
  rw [hone, BitVec.getMsbD_ushiftRight, BitVec.getMsbD_twoPow]
  by_cases hp : p < 32
  · by_cases heq : p = pos
    · simp [heq, hpos]
    · by_cases hlt : p < pos
      · simp [heq, hlt]
      · have hne : ¬ p - pos = 0 := by omega
        simp [heq, hlt, hne]
  · have hne : ¬ p = pos := by omega
    simp [hp, hne]

/-- One half of a node that is cut in two. -/
theorem halfNode_ok {inode : TnodeHead} (hok : (Tnode.mk inode child).Ok) (hbits : 1 < inode.bits)
    {half : TKey} {b : Bool} (hagree : Agree half inode.key inode.pos)
    (hbit : half.getMsbD inode.pos = b) :
    ((tnodeNew half (inode.pos + 1) (inode.bits - 1)).putChildren child
      (b.toNat * 2 ^ (inode.bits - 1)) (2 ^ (inode.bits - 1))).Ok := by
  have hcount : inode.bits - 1 + 1 = inode.bits := by omega
  have hpow : 2 ^ inode.bits = 2 * 2 ^ (inode.bits - 1) := by
    rw [← hcount, Nat.pow_succ, Nat.mul_comm, hcount]
  have hwithin : inode.pos + inode.bits ≤ 32 := hok.within
  have hslot : ∀ j < 2 ^ (inode.bits - 1),
      j + b.toNat * 2 ^ (inode.bits - 1) < 2 ^ inode.bits := by
    intro j hj
    have hb := Nat.mul_le_mul_right (2 ^ (inode.bits - 1)) (Bool.toNat_le b)
    rw [hpow]
    omega
  constructor
  · rw [putChildren_bits, tnodeNew_bits]
    exact Nat.sub_pos_of_lt hbits
  · rw [putChildren_pos, putChildren_bits, tnodeNew_pos, tnodeNew_bits]
    omega
  · exact (tnodeNew_counted half (inode.pos + 1) (inode.bits - 1)).putChildren child _ le_rfl
  · intro j hj
    rw [putChildren_bits, tnodeNew_bits] at hj
    rw [putChildren_key, putChildren_pos, putChildren_bits, tnodeNew_key, tnodeNew_pos,
      tnodeNew_bits, putChildren_child _ _ _ hj]
    have hfits : FitsIn inode.key inode.pos inode.bits _ _ := hok.fits _ (hslot j hj)
    constructor
    · intro l hl
      obtain ⟨hl', hfield⟩ := hfits.keys l hl
      rw [← hcount, field_succ_left, hcount] at hfield
      have hrest : field l.1 (inode.pos + 1) (inode.bits - 1) < _ := field_lt
      have hsame : l.1.getMsbD inode.pos = b := by
        cases b <;> cases hl1 : l.1.getMsbD inode.pos <;> rw [hl1] at hfield <;>
          simp only [Bool.toNat_true, Bool.toNat_false] at hfield <;> first | rfl | omega
      constructor
      · rw [agree_add, field_succ, field_succ, field_zero, field_zero, Nat.add_zero, hsame, hbit]
        exact ⟨hl'.trans hagree.symm, rfl⟩
      · rw [hsame] at hfield
        omega
    · rw [show inode.pos + 1 + (inode.bits - 1) = inode.pos + inode.bits by omega]
      exact hfits.behind
  · intro j hj
    rw [putChildren_bits, tnodeNew_bits] at hj
    rw [putChildren_child _ _ _ hj]
    exact hok.kept _ (hslot j hj)

/-- The leaves of one half. -/
theorem leaves_putChildren (tn : Tnode α) (child : ℕ → Node α) (q : ℕ) :
    (tn.putChildren child q (2 ^ tn.bits)).node.leaves =
      (List.range (2 ^ tn.bits)).flatMap fun j => (child (j + q)).leaves := by
  rw [leaves_node, putChildren_bits]
  apply flatMap_range_congr
  intro j hj
  rw [putChildren_child _ _ _ hj]

end IpAugenblick.FibTrie
