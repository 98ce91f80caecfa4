/-
# Updating the trie

`walk` goes down to where a key is or belongs.  What is beside the way has other keys, so that a
leaf put in, changed or taken out at its end changes this key only; `trie_rebalance` then resizes
the nodes on the way back, which changes no leaf at all.
-/

import IpAugenblick.Lib.Keyed
import IpAugenblick.Route.Resize

namespace IpAugenblick.FibTrie

open Lib Lib.BitKey Lib.Slots Lib.Keyed

universe u

variable {α : Type u} {t n x : Node α} {tn tp : Tnode α} {up : List (Tnode α)} {key : TKey}
  {list : α} {mem : Memory} {l : TKey × α}

/-- The leaves are in the order of their keys. -/
theorem Node.Kept.sorted (hn : n.Kept) : n.leaves.Pairwise fun a b => a.1 < b.1 := by
  induction n with
  | null => exact List.Pairwise.nil
  | leaf key list => exact List.pairwise_singleton _ _
  | tnode head child ih =>
      have hok := (kept_tnode.mp hn).1
      rw [Node.leaves, List.pairwise_flatMap]
      refine ⟨fun i hi => ih i (hok.kept i (List.mem_range.mp hi)), ?_⟩
      apply List.pairwise_lt_range.imp_of_mem
      intro i j hi hj hlt a ha b hb
      obtain ⟨haa, hai⟩ := (hok.fits i (List.mem_range.mp hi)).keys a ha
      obtain ⟨hba, hbj⟩ := (hok.fits j (List.mem_range.mp hj)).keys b hb
      apply (haa.trans hba.symm).lt _ hok.within
      rw [hai, hbj]
      exact hlt

theorem Node.Kept.distinct (hn : n.Kept) : Distinct n.leaves :=
  hn.sorted.imp fun hlt => BitVec.ne_of_lt hlt

/-- The number of the slot on the way of a key. -/
theorem Tnode.Ok.slot (hok : tn.Ok) (key : TKey) :
    (tkeyExtractBits key tn.pos tn.bits).toNat = field key tn.pos tn.bits ∧
      (tkeyExtractBits key tn.pos tn.bits).toNat < 2 ^ tn.bits := by
  rw [toNat_tkeyExtractBits _ hok.within]
  exact ⟨rfl, field_lt⟩

/-- The way of a key from the root: the nodes passed, the last one first, and where it has come
to. -/
inductive Path (t : Node α) (key : TKey) : List (Tnode α) → Node α → Prop
  | root : Path t key [] t
  | down {tp : Tnode α} {up : List (Tnode α)} (above : Path t key up tp.node)
      (agree : Agree key tp.key tp.pos) :
      Path t key (tp :: up) (tp.child (tkeyExtractBits key tp.pos tp.bits).toNat)

def before (key : TKey) : List (Tnode α) → List (TKey × α)
  | [] => []
  | tp :: up => before key up ++
      (List.range (tkeyExtractBits key tp.pos tp.bits).toNat).flatMap fun i => (tp.child i).leaves

def after (key : TKey) : List (Tnode α) → List (TKey × α)
  | [] => []
  | tp :: up =>
      (List.range' ((tkeyExtractBits key tp.pos tp.bits).toNat + 1)
        (2 ^ tp.bits - ((tkeyExtractBits key tp.pos tp.bits).toNat + 1))).flatMap
          (fun i => (tp.child i).leaves) ++ after key up

namespace Path

/-- What is known where the way has come to. -/
theorem spec (ht : t.Kept) (hpath : Path t key up n) :
    n.Kept ∧ n.From (behind up) ∧ ∀ l ∈ n.leaves, Agree l.1 key (behind up) := by
  induction hpath with
  | root =>
      refine ⟨ht, ?_, fun l _ => agree_zero⟩
      cases t with
      | null | leaf => trivial
      | tnode head child => exact Nat.zero_le _
  | @down tp up above agree ih =>
      obtain ⟨hok, -⟩ := kept_node.mp ih.1
      obtain ⟨hslot, hlt⟩ := hok.slot key
      have hfits := hok.fits _ hlt
      refine ⟨hok.kept _ hlt, hfits.behind, fun l hl => ?_⟩
      obtain ⟨hagree, hfield⟩ := hfits.keys l hl
      exact agree_add.mpr ⟨hagree.trans agree.symm, hfield.trans hslot⟩

theorem ok (ht : t.Kept) (hpath : Path t key (tp :: up) n) :
    tp.Ok ∧ tp.emptyChildren + 2 ≤ 2 ^ tp.bits ∧ Agree key tp.key tp.pos ∧
      Path t key up tp.node ∧ n = tp.child (tkeyExtractBits key tp.pos tp.bits).toNat := by
  cases hpath with
  | down above agree =>
      obtain ⟨hok, hdense⟩ := kept_node.mp (above.spec ht).1
      exact ⟨hok, hdense, agree, above, rfl⟩

/-- The leaves of the trie, as seen from the way. -/
theorem leaves_eq (ht : t.Kept) (hpath : Path t key up n) :
    t.leaves = before key up ++ n.leaves ++ after key up := by
  induction hpath with
  | root => rw [before, after, List.nil_append, List.append_nil]
  | @down tp up above agree ih =>
      obtain ⟨hok, -⟩ := kept_node.mp (above.spec ht).1
      obtain ⟨-, hlt⟩ := hok.slot key
      rw [ih, leaves_node, flatMap_range_split hlt, before, after]
      simp only [List.append_assoc]

/-- What is beside the way has other keys. -/
theorem beside (ht : t.Kept) (hpath : Path t key up n) :
    ∀ l, l ∈ before key up ∨ l ∈ after key up → l.1 ≠ key := by
  induction hpath with
  | root => exact fun l hl => by rcases hl with hl | hl <;> cases hl
  | @down tp up above agree ih =>
      obtain ⟨hok, -⟩ := kept_node.mp (above.spec ht).1
      obtain ⟨hslot, hlt⟩ := hok.slot key
      have hother : ∀ i < 2 ^ tp.bits, i ≠ (tkeyExtractBits key tp.pos tp.bits).toNat →
          ∀ l ∈ (tp.child i).leaves, l.1 ≠ key := by
        rintro i hi hne l hl rfl
        exact hne (hslot.trans ((hok.fits i hi).keys l hl).2).symm
      rintro l (hl | hl)
      · rcases List.mem_append.mp hl with hl | hl
        · exact ih l (.inl hl)
        · obtain ⟨i, hi, hl⟩ := List.mem_flatMap.mp hl
          have hi := List.mem_range.mp hi
          exact hother i (hi.trans hlt) (Nat.ne_of_lt hi) l hl
      · rcases List.mem_append.mp hl with hl | hl
        · obtain ⟨i, hi, hl⟩ := List.mem_flatMap.mp hl
          have hi := List.mem_range'_1.mp hi
          exact hother i (by omega) (by omega) l hl
        · exact ih l (.inr hl)

/-- What `fib_find_node` checks of the skipped bits decides whether the key has the prefix. -/
theorem subEquals_iff {head : TnodeHead} {child : ℕ → Node α} (ht : t.Kept)
    (hpath : Path t key up (.tnode head child)) :
    tkeySubEquals head.key (behind up) (head.pos - behind up) key = true ↔
      Agree key head.key head.pos := by
  obtain ⟨hkept, hfrom, hkeys⟩ := hpath.spec ht
  have hok := (kept_tnode.mp hkept).1
  have hwithin : head.pos + head.bits ≤ 32 := hok.within
  have hle : behind up ≤ head.pos := hfrom
  obtain ⟨l, hl⟩ := hkept.exists_leaf rfl
  have hfirst : Agree key head.key (behind up) :=
    (hkeys l hl).symm.trans ((hok.agree hl).mono hle)
  rw [tkeySubEquals_iff (by omega), ← Nat.add_sub_cancel' hle, agree_add, Nat.add_sub_cancel' hle]
  exact ⟨fun h => ⟨hfirst, h.symm⟩, fun h => h.2.symm⟩

end Path

/-- `walk` keeps to the way of the key. -/
theorem walk_path (ht : t.Kept) (hpath : Path t key up n) :
    Path t key (walk key n (behind up) up).1 (walk key n (behind up) up).2 := by
  induction n generalizing up with
  | null | leaf => exact hpath
  | tnode head child ih =>
      rw [walk]
      split
      next hsub =>
        exact ih _ (@Path.down _ t key ⟨head, child⟩ up hpath ((hpath.subEquals_iff ht).mp hsub))
      next => exact hpath

/-- Where `walk` ends at an internal node, the key is not below. -/
theorem walk_end {head : TnodeHead} {child : ℕ → Node α} (ht : t.Kept)
    (hpath : Path t key up n) (hend : (walk key n (behind up) up).2 = .tnode head child) :
    ¬ Agree key head.key head.pos := by
  induction n generalizing up with
  | null | leaf => cases hend
  | tnode h c ih =>
      rw [walk] at hend
      split at hend
      next hsub =>
        exact ih _ (@Path.down _ t key ⟨h, c⟩ up hpath ((hpath.subEquals_iff ht).mp hsub)) hend
      next hsub =>
        cases hend
        exact fun hagree => hsub ((hpath.subEquals_iff ht).mpr hagree)

/-- What is known of the place that `walk` finds. -/
theorem walk_spec (ht : t.Kept) (key : TKey) :
    Path t key (walk key t 0 []).1 (walk key t 0 []).2 ∧
      ((∀ list, (walk key t 0 []).2 ≠ .leaf key list) →
        ∀ l ∈ (walk key t 0 []).2.leaves, l.1 ≠ key) := by
  have hpath : Path t key (walk key t 0 []).1 (walk key t 0 []).2 := walk_path ht .root
  refine ⟨hpath, fun hne l hl => ?_⟩
  cases hend : (walk key t 0 []).2 with
  | null =>
      rw [hend] at hl
      cases hl
  | leaf k list =>
      rw [hend] at hl hne
      rw [List.mem_singleton.mp hl]
      rintro rfl
      exact hne list rfl
  | tnode head child =>
      rw [hend] at hl hpath
      have hok := (kept_tnode.mp (hpath.spec ht).1).1
      rintro rfl
      exact walk_end ht .root hend (hok.agree hl)

/-- Only below the place that `walk` finds may a key be. -/
theorem Path.mem_of_key (ht : t.Kept) (hpath : Path t key up n) (hl : l ∈ t.leaves)
    (hkey : l.1 = key) : l ∈ n.leaves := by
  rw [hpath.leaves_eq ht, List.mem_append, List.mem_append] at hl
  rcases hl with (hl | hl) | hl
  · exact absurd hkey (hpath.beside ht l (.inl hl))
  · exact hl
  · exact absurd hkey (hpath.beside ht l (.inr hl))

theorem Path.mem_leaves (ht : t.Kept) (hpath : Path t key up n) (hl : l ∈ n.leaves) :
    l ∈ t.leaves := by
  rw [hpath.leaves_eq ht]
  exact List.mem_append_left _ (List.mem_append_right _ hl)

/-- **Exact match.**  `fib_find_node` finds the leaf with the key, if there is one. -/
theorem fibFindNode_eq (ht : t.Kept) (key : TKey) : fibFindNode t key = t.leaves.lookup key := by
  obtain ⟨hpath, hnew⟩ := walk_spec ht key
  have hnone : (∀ l ∈ (walk key t 0 []).2.leaves, l.1 ≠ key) → t.leaves.lookup key = none :=
    fun hother => lookup_eq_none fun l hl hkey => hother l (hpath.mem_of_key ht hl hkey) hkey
  rw [fibFindNode]
  cases hend : (walk key t 0 []).2 with
  | null =>
      rw [hend] at hnone
      exact (hnone (List.forall_mem_nil _)).symm
  | leaf k list =>
      rw [hend] at hpath hnone
      dsimp only
      split
      next heq =>
        rw [heq, eq_comm, ht.distinct.lookup_iff]
        exact hpath.mem_leaves ht (List.mem_singleton_self _)
      next hne =>
        refine (hnone fun l hl => ?_).symm
        rw [List.mem_singleton.mp hl]
        exact Ne.symm hne
  | tnode head child =>
      rw [hend] at hnew hnone
      exact (hnone (hnew nofun)).symm

/-- A node that the key goes through fits where it is. -/
theorem Path.fits (ht : t.Kept) (hpath : Path t key (tp :: up) n) (hok : tn.Ok)
    (hagree : Agree key tn.key tn.pos) (hle : behind (tp :: up) ≤ tn.pos) :
    FitsIn tp.key tp.pos tp.bits (tkeyExtractBits key tp.pos tp.bits).toNat tn.node := by
  obtain ⟨htp, -, hagree', -, -⟩ := hpath.ok ht
  refine ⟨fun l hl => ?_, hle⟩
  obtain ⟨hl', hfield⟩ := agree_add.mp (((hok.agree hl).trans hagree.symm).mono hle)
  rw [(htp.slot key).1]
  exact ⟨hl'.trans hagree', hfield⟩

/-- **What `trie_rebalance` keeps.**  By induction on the nodes above: each is given the resized
node and is resized itself. -/
theorem trieRebalance_spec {key' : TKey} (mem : Memory) (ht : t.Kept) (hpath : Path t key up n)
    (hsame : Agree key key' (behind up)) (hok : tn.Ok) (hagree : Agree key tn.key tn.pos)
    (hle : behind up ≤ tn.pos) :
    (trieRebalance mem key' tn up).Kept ∧
      (trieRebalance mem key' tn up).leaves = before key up ++ tn.node.leaves ++ after key up := by
  induction up generalizing tn n with
  | nil =>
      have hres := resize_spec 32 true (mem.within 0) hok (Nat.le_add_left 32 tn.pos)
      rw [before, after, List.nil_append, List.append_nil]
      exact ⟨hres.kept, hres.leaves⟩
  | cons tp up ih =>
      obtain ⟨htp, hdense, hagree', habove, hn⟩ := hpath.ok ht
      obtain ⟨hslot, hlt⟩ := htp.slot key
      have hres := resize_spec 32 false (mem.within (up.length + 1)) hok
        (Nat.le_add_left 32 tn.pos)
      have hfits := hpath.fits ht hok hagree hle
      have hkey' : tkeyExtractBits key' tp.pos tp.bits = tkeyExtractBits key tp.pos tp.bits := by
        apply BitVec.eq_of_toNat_eq
        rw [toNat_tkeyExtractBits _ htp.within, toNat_tkeyExtractBits _ htp.within]
        exact (hsame.field_eq le_rfl).symm
      have hfits' : FitsIn tp.key tp.pos tp.bits (tkeyExtractBits key tp.pos tp.bits).toNat
          (resize 32 false tn (mem.within (up.length + 1))) :=
        ⟨fun l hl => hfits.keys l (hres.leaves ▸ hl), hres.behind.mono hle⟩
      have hput := htp.putChild hlt hfits' hres.kept
      have hbehind : behind up ≤ tp.pos := (habove.spec ht).2.1
      rw [trieRebalance, hkey']
      obtain ⟨hkept, hleaves⟩ := ih habove
        (hsame.mono (hbehind.trans (Nat.le_add_right _ _))) hput hagree' hbehind
      refine ⟨hkept, hleaves.trans ?_⟩
      rw [leaves_putChild hlt, hres.leaves, before, after]
      simp only [List.append_assoc]

/-- A leaf's list is changed in its place. -/
theorem plug_spec (ht : t.Kept) (hpath : Path t key up n) (hx : x.Kept)
    (hnull : x.isNull = n.isNull) (hfull : ∀ h : TnodeHead, h.tnodeFull x = h.tnodeFull n)
    (hfrom : x.From (behind up)) (hkeys : ∀ l ∈ x.leaves, Agree l.1 key (behind up)) :
    (plug key up x).Kept ∧
      (plug key up x).leaves = before key up ++ x.leaves ++ after key up := by
  induction up generalizing n x with
  | nil =>
      rw [before, after, List.nil_append, List.append_nil]
      exact ⟨hx, rfl⟩
  | cons tp up ih =>
      obtain ⟨htp, hdense, hagree, habove, hn⟩ := hpath.ok ht
      obtain ⟨hslot, hlt⟩ := htp.slot key
      have hsame : ∀ (p : Node α → Bool), p x = p n → ∀ i,
          p (Function.update tp.child (tkeyExtractBits key tp.pos tp.bits).toNat x i) =
            p (tp.child i) := by
        intro p hp i
        by_cases hi : i = (tkeyExtractBits key tp.pos tp.bits).toNat
        · rw [hi, Function.update_self, hp, hn]
        · rw [Function.update_of_ne hi]
      have hok : (Tnode.mk tp.toTnodeHead (Function.update tp.child
          (tkeyExtractBits key tp.pos tp.bits).toNat x)).Ok := by
        have hput := htp.putChild hlt ⟨fun l hl => ?_, hfrom⟩ hx
        · refine ⟨hput.bits_pos, hput.within, ⟨?_, ?_⟩, hput.fits, hput.kept⟩
          · exact htp.counted.empty.trans
              (marked_congr fun i _ => hsame Node.isNull hnull i).symm
          · exact htp.counted.full.trans
              (marked_congr fun i _ => hsame tp.tnodeFull (hfull _) i).symm
        · obtain ⟨hl', hfield⟩ := agree_add.mp (hkeys l hl)
          rw [hslot]
          exact ⟨hl'.trans hagree, hfield⟩
      have hbehind : behind up ≤ tp.pos := (habove.spec ht).2.1
      obtain ⟨hkept, hleaves⟩ := ih habove (kept_tnode.mpr ⟨hok, hdense⟩) rfl (fun _ => rfl) hbehind
        fun l hl => ((hok.agree hl).trans hagree.symm).mono hbehind
      rw [plug]
      refine ⟨hkept, hleaves.trans ?_⟩
      rw [before, after, Node.leaves, flatMap_range_update hlt]
      simp only [List.append_assoc]

/-- Where a new leaf and what is in its place are told apart. -/
theorem Path.mismatch (ht : t.Kept) (hpath : Path t key up n) (hthere : n.isNull = false)
    (hnew : ∀ l ∈ n.leaves, l.1 ≠ key)
    (hend : ∀ {head child}, n = .tnode head child → ¬ Agree key head.key head.pos) {newpos : ℕ}
    (hpos : newpos = tkeyMismatch key (behind up) n.key) :
    behind up ≤ newpos ∧ newpos < 32 ∧ Agree key n.key newpos ∧ n.From (newpos + 1) ∧
      ∀ l ∈ n.leaves, Agree l.1 key newpos ∧ l.1.getMsbD newpos = !key.getMsbD newpos := by
  obtain ⟨hn, hfrom, hkeys⟩ := hpath.spec ht
  obtain ⟨l, hl⟩ := hn.exists_leaf hthere
  have hagree : Agree key n.key (behind up) := (hkeys l hl).symm.trans (hn.agree_key hfrom hl)
  have hne : key ≠ n.key := by
    cases n with
    | null => cases hthere
    | leaf k list' => exact fun h => hnew _ (List.mem_singleton_self _) h.symm
    | tnode head child => exact fun h => hend rfl (h ▸ Agree.refl key head.pos)
  obtain ⟨hle, hlt, hpre, hbit⟩ := tkeyMismatch_spec hagree hne
  rw [← hpos] at hle hlt hpre hbit
  have hfrom' : n.From (newpos + 1) := by
    cases n with
    | null | leaf => trivial
    | tnode head child =>
        change newpos + 1 ≤ head.pos
        by_contra hge
        exact hend rfl (hpre.mono (by omega))
  refine ⟨hle, hlt, hpre, hfrom', fun l hl => ?_⟩
  have hown := hn.agree_key hfrom' hl
  refine ⟨(hown.mono (Nat.le_succ newpos)).trans hpre.symm, ?_⟩
  rw [hown newpos (Nat.lt_succ_self newpos), Bool.eq_not]
  exact hbit.symm

/-- The node above a new leaf and what was in its place. -/
theorem newTnode_spec (ht : t.Kept) (hpath : Path t key up n)
    (hplace : n.isNull = false ∨ up = []) (hnew : ∀ l ∈ n.leaves, l.1 ≠ key)
    (hend : ∀ {head child}, n = .tnode head child → ¬ Agree key head.key head.pos) (list : α) :
    ((newTnode key list up n).Ok ∧ Agree key (newTnode key list up n).key
        (newTnode key list up n).pos ∧ behind up ≤ (newTnode key list up n).pos) ∧
      (∀ l, l ∈ (newTnode key list up n).node.leaves ↔ l = (key, list) ∨ l ∈ n.leaves) ∧
      (n.isNull = false →
        (newTnode key list up n).emptyChildren + 2 ≤ 2 ^ (newTnode key list up n).bits) := by
  have hn := (hpath.spec ht).1
  obtain ⟨nkey, newpos, hchoice, hle, hlt, hpre, hfrom, hkeys⟩ : ∃ nkey newpos,
      (if n.isNull then (key, 0) else (n.key, tkeyMismatch key (behind up) n.key)) =
        (nkey, newpos) ∧ behind up ≤ newpos ∧ newpos < 32 ∧ Agree key nkey newpos ∧
      n.From (newpos + 1) ∧
        ∀ l ∈ n.leaves, Agree l.1 key newpos ∧ l.1.getMsbD newpos = !key.getMsbD newpos := by
    cases hnull : n.isNull with
    | true =>
        cases n with
        | leaf | tnode => cases hnull
        | null =>
            obtain rfl : up = [] := hplace.resolve_left (by rw [hnull]; decide)
            exact ⟨key, 0, rfl, le_rfl, by decide, agree_zero, trivial, fun l hl => by cases hl⟩
    | false => exact ⟨_, _, rfl, hpath.mismatch ht hnull hnew hend rfl⟩
  have hmiss : (tkeyExtractBits key newpos 1).toNat = (key.getMsbD newpos).toNat := by
    rw [toNat_tkeyExtractBits _ hlt, field_succ, field_zero, Nat.mul_zero, Nat.zero_add,
      Nat.add_zero]
  have htn : newTnode key list up n =
      ((tnodeNew nkey newpos 1).putChild (key.getMsbD newpos).toNat (.leaf key list)).putChild
        (1 - (key.getMsbD newpos).toNat) n := by
    rw [newTnode, hchoice, ← hmiss]
  have hok := binNode_ok (x := .leaf key list) (y := n) (key.getMsbD newpos) hlt hpre.symm trivial
    hn trivial hfrom (fun l hl => by rw [List.mem_singleton.mp hl]; exact ⟨Agree.refl key _, rfl⟩)
    hkeys rfl
  rw [htn]
  refine ⟨⟨hok, hpre, hle⟩, fun l => ?_, fun hthere => ?_⟩
  · rw [leaves_binNode]
    cases key.getMsbD newpos
    · simp only [cond_false, Node.leaves, List.mem_append, List.mem_singleton]
    · simp only [cond_true, Node.leaves, List.mem_append, List.mem_singleton, or_comm]
  · rw [hok.counted.empty, marked_add_two_le]
    refine ⟨0, 1, Nat.one_pos, Nat.one_lt_two, ?_⟩
    have hleaf : (Node.leaf key list).isNull = false := rfl
    cases key.getMsbD newpos <;> simp [putChild_child, Function.update, hthere, hleaf]

/-- A node is put in the place that `walk` has found, and the nodes above are rebalanced. -/
theorem rebalance_put (mem : Memory) (ht : t.Kept) (hpath : Path t key (tp :: up) n) (hx : x.Kept)
    (hfits : FitsIn tp.key tp.pos tp.bits (tkeyExtractBits key tp.pos tp.bits).toNat x) :
    (trieRebalance mem tp.key
        (tp.putChild (tkeyExtractBits key tp.pos tp.bits).toNat x) up).Kept ∧
      (trieRebalance mem tp.key
        (tp.putChild (tkeyExtractBits key tp.pos tp.bits).toNat x) up).leaves =
          before key (tp :: up) ++ x.leaves ++ after key (tp :: up) := by
  obtain ⟨htp, -, hagree, habove, -⟩ := hpath.ok ht
  obtain ⟨-, hlt⟩ := htp.slot key
  have hbehind : behind up ≤ tp.pos := (habove.spec ht).2.1
  obtain ⟨hkept, hleaves⟩ := trieRebalance_spec mem ht habove (hagree.mono hbehind)
    (htp.putChild hlt hfits hx) hagree hbehind
  refine ⟨hkept, hleaves.trans ?_⟩
  rw [leaves_putChild hlt, before, after]
  simp only [List.append_assoc]

/-- **What `fib_insert_node` does with a new leaf**, where there is memory for it: the leaf is
there, and all others as before. -/
theorem insertLeaf_spec (ht : t.Kept) (hpath : Path t key up n)
    (hnew : ∀ l ∈ n.leaves, l.1 ≠ key)
    (hend : ∀ {head child}, n = .tnode head child → ¬ Agree key head.key head.pos)
    (hrun : insertLeaf mem key list up n = some x) :
    x.Kept ∧ ∃ mid, x.leaves = before key up ++ mid ++ after key up ∧
      ∀ l, l ∈ mid ↔ l = (key, list) ∨ l ∈ n.leaves := by
  cases up with
  | nil =>
      obtain ⟨⟨hok, hagree, -⟩, hmem, -⟩ := newTnode_spec ht hpath (.inr rfl) hnew hend list
      have hunfold : insertLeaf mem key list [] n = if mem [0] then
          some (trieRebalance (mem.within 1) (newTnode key list [] n).key
            (newTnode key list [] n) []) else none := by
        cases n <;> rfl
      rw [hunfold] at hrun
      split at hrun
      next =>
        cases hrun
        obtain ⟨hkept, hleaves⟩ := trieRebalance_spec (mem.within 1) ht hpath agree_zero
          hok hagree (Nat.zero_le _)
        exact ⟨hkept, _, hleaves, hmem⟩
      next => cases hrun
  | cons tp up =>
      obtain ⟨htp, -, hagree, -, hn⟩ := hpath.ok ht
      obtain ⟨hslot, -⟩ := htp.slot key
      cases hthere : n.isNull with
      | true =>
          cases n with
          | leaf | tnode => cases hthere
          | null =>
              cases hrun
              have hfits : FitsIn tp.key tp.pos tp.bits
                  (tkeyExtractBits key tp.pos tp.bits).toNat (.leaf key list : Node α) := by
                refine ⟨fun l hl => ?_, trivial⟩
                rw [List.mem_singleton.mp hl]
                exact ⟨hagree, hslot.symm⟩
              have hleaf : (Node.leaf key list).Kept := trivial
              obtain ⟨hkept, hleaves⟩ := rebalance_put (mem.within 1) ht hpath hleaf hfits
              exact ⟨hkept, _, hleaves, fun l => by simp [Node.leaves]⟩
      | false =>
          obtain ⟨⟨hok, hagree', hle⟩, hmem, hdense⟩ :=
            newTnode_spec ht hpath (.inl hthere) hnew hend list
          have hunfold : insertLeaf mem key list (tp :: up) n = if mem [0] then
              some (trieRebalance (mem.within 1) tp.key
                (tp.putChild (tkeyExtractBits key tp.pos tp.bits).toNat
                  (newTnode key list (tp :: up) n).node) up) else none := by
            cases n with
            | null => cases hthere
            | leaf | tnode => rfl
          rw [hunfold] at hrun
          split at hrun
          next =>
            cases hrun
            obtain ⟨hkept, hleaves⟩ := rebalance_put (mem.within 1) ht hpath
              (kept_node.mpr ⟨hok, hdense hthere⟩) (hpath.fits ht hok hagree' hle)
            exact ⟨hkept, _, hleaves, hmem⟩
          next => cases hrun

/-- **What `trie_leaf_remove` does**: the leaf that `walk` finds is gone, and all others are as
before. -/
theorem trieLeafRemove_spec (ht : t.Kept) (key : TKey) (mem : Memory) :
    (trieLeafRemove mem t key).Kept ∧ (trieLeafRemove mem t key).leaves =
      before key (walk key t 0 []).1 ++ after key (walk key t 0 []).1 := by
  obtain ⟨hpath, -⟩ := walk_spec ht key
  rw [trieLeafRemove]
  cases hup : (walk key t 0 []).1 with
  | nil => exact ⟨trivial, rfl⟩
  | cons tp up =>
      rw [hup] at hpath
      obtain ⟨hkept, hleaves⟩ := rebalance_put mem ht hpath (show Node.null.Kept from trivial)
        fitsIn_null
      rw [leaves_null, List.append_nil] at hleaves
      exact ⟨hkept, hleaves⟩

end IpAugenblick.FibTrie
