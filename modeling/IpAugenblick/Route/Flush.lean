/-
# Flushing the table

`fib_table_flush` walks over all leaves, takes the dead routes out of each, and removes a leaf that
is left empty when it has gone on to the next one.  A removal resizes the nodes above; the walk
finds its way by parent pointers and the bits of keys all the same, so that no leaf is left out.
-/

import IpAugenblick.Route.FibTable

namespace IpAugenblick.FibTrie

open Lib Lib.BitKey Lib.Slots Lib.Keyed

universe u

/-- `trie_flush_list`: how many routes it takes out, and the others. -/
def trieFlushList (info : ℕ → FibInfo) : List FibAlias → ℕ × List FibAlias
  | [] => (0, [])
  | fa :: rest =>
      if (info fa.faInfo).fibFlags &&& rtnhFDead ≠ 0 then
        ((trieFlushList info rest).1 + 1, (trieFlushList info rest).2)
      else ((trieFlushList info rest).1, fa :: (trieFlushList info rest).2)

def trieFlushLeaf (info : ℕ → FibInfo) : List LeafInfo → ℕ × List LeafInfo
  | [] => (0, [])
  | li :: rest =>
      ((trieFlushList info li.falh).1 + (trieFlushLeaf info rest).1,
        if (trieFlushList info li.falh).2 = [] then (trieFlushLeaf info rest).2
        else { li with falh := (trieFlushList info li.falh).2 } :: (trieFlushLeaf info rest).2)

section Walk

variable {α : Type u}

/-- `leaf_walk_rcu` from slot `idx` of a node on, and the nodes above it; `none` when the fuel did
not do. -/
def leafWalkRcu : ℕ → Tnode α → List (Tnode α) → ℕ → Option (Option (TKey × α))
  | 0, _, _, _ => none
  | fuel + 1, p, up, idx =>
      if idx < 2 ^ p.bits then
        match p.child idx with
        | .null => leafWalkRcu fuel p up (idx + 1)
        | .leaf key list => some (some (key, list))
        | .tnode head child => leafWalkRcu fuel ⟨head, child⟩ (p :: up) 0
      else
        match up with
        | [] => some none
        | parent :: up =>
            leafWalkRcu fuel parent up ((tkeyExtractBits p.key parent.pos parent.bits).toNat + 1)

def trieFirstleaf (fuel : ℕ) : Node α → Option (Option (TKey × α))
  | .null => some none
  | .leaf key list => some (some (key, list))
  | .tnode head child => leafWalkRcu fuel ⟨head, child⟩ [] 0

/-- `trie_nextleaf` of the leaf with a key. -/
def trieNextleaf (fuel : ℕ) (t : Node α) (key : TKey) : Option (Option (TKey × α)) :=
  match (walk key t 0 []).1 with
  | [] => some none
  | p :: up => leafWalkRcu fuel p up ((tkeyExtractBits key p.pos p.bits).toNat + 1)

end Walk

def removeEmpty (mem : Memory) (t : Trie) : Option TKey → Trie
  | none => t
  | some key =>
      match fibFindNode t key with
      | some [] => trieLeafRemove mem t key
      | _ => t

/-- The loop of `fib_table_flush`, with `ll`, `l` and `found`. -/
def flushLeaves (fuel : ℕ) (info : ℕ → FibInfo) :
    ℕ → Memory → Trie → Option TKey → Option (TKey × List LeafInfo) → ℕ → Option (ℕ × Trie)
  | 0, _, _, _, _, _ => none
  | _ + 1, mem, t, ll, none, found => some (found, removeEmpty (mem.within 0) t ll)
  | rounds + 1, mem, t, ll, some (key, list), found =>
      let flushed := trieFlushLeaf info list
      let t := removeEmpty (mem.within 0) (setLeaf t key flushed.2) ll
      (trieNextleaf fuel t key).bind fun l =>
        flushLeaves fuel info rounds (mem.within 1) t (some key) l (found + flushed.1)

/-- `fib_table_flush`; `none` when the fuel did not do. -/
def fibTableFlush (fuel : ℕ) (mem : Memory) (info : ℕ → FibInfo) (t : Trie) : Option (ℕ × Trie) :=
  (trieFirstleaf fuel t).bind fun l => flushLeaves fuel info fuel mem t none l 0

section Fuel

variable {α : Type u} {fuel n : ℕ}

/-- More fuel changes no walk. -/
theorem leafWalkRcu_mono (hle : fuel ≤ n) {p : Tnode α} {up : List (Tnode α)} {idx : ℕ}
    {r : Option (TKey × α)} (h : leafWalkRcu fuel p up idx = some r) :
    leafWalkRcu n p up idx = some r := by
  induction fuel generalizing n p up idx with
  | zero => cases h
  | succ fuel ih =>
      obtain ⟨n, rfl⟩ := Nat.exists_eq_add_of_le' (Nat.le_of_add_left_le hle)
      have hle := Nat.le_of_succ_le_succ hle
      rw [leafWalkRcu.eq_def] at h ⊢
      dsimp only at h ⊢
      split
      next hlt =>
        rw [if_pos hlt] at h
        cases hchild : p.child idx with
        | null =>
            rw [hchild] at h
            exact ih hle h
        | leaf key list =>
            rw [hchild] at h
            exact h
        | tnode head child =>
            rw [hchild] at h
            exact ih hle h
      next hge =>
        rw [if_neg hge] at h
        cases up with
        | nil => exact h
        | cons parent up => exact ih hle h

theorem trieFirstleaf_mono (hle : fuel ≤ n) {t : Node α} {r : Option (TKey × α)}
    (h : trieFirstleaf fuel t = some r) : trieFirstleaf n t = some r := by
  cases t with
  | null | leaf => exact h
  | tnode => exact leafWalkRcu_mono hle h

theorem trieNextleaf_mono (hle : fuel ≤ n) {t : Node α} {key : TKey} {r : Option (TKey × α)}
    (h : trieNextleaf fuel t key = some r) : trieNextleaf n t key = some r := by
  rw [trieNextleaf] at h ⊢
  cases hup : (walk key t 0 []).1 with
  | nil =>
      rw [hup] at h
      exact h
  | cons p up =>
      rw [hup] at h
      exact leafWalkRcu_mono hle h

theorem flushLeaves_mono (hle : fuel ≤ n) {info : ℕ → FibInfo} {rounds rounds' : ℕ}
    (hrounds : rounds ≤ rounds') {mem : Memory} {t : Trie} {ll : Option TKey}
    {l : Option (TKey × List LeafInfo)} {found : ℕ} {out : ℕ × Trie}
    (h : flushLeaves fuel info rounds mem t ll l found = some out) :
    flushLeaves n info rounds' mem t ll l found = some out := by
  induction rounds generalizing rounds' mem t ll l found with
  | zero => cases h
  | succ rounds ih =>
      obtain ⟨rounds', rfl⟩ := Nat.exists_eq_add_of_le' (Nat.le_of_add_left_le hrounds)
      cases l with
      | none => exact h
      | some l =>
          obtain ⟨key, list⟩ := l
          rw [flushLeaves, Option.bind_eq_some_iff] at h ⊢
          obtain ⟨l, hnext, hrest⟩ := h
          exact ⟨l, trieNextleaf_mono hle hnext, ih (Nat.le_of_succ_le_succ hrounds) hrest⟩

theorem fibTableFlush_mono (hle : fuel ≤ n) {mem : Memory} {info : ℕ → FibInfo} {t : Trie}
    {out : ℕ × Trie} (h : fibTableFlush fuel mem info t = some out) :
    fibTableFlush n mem info t = some out := by
  rw [fibTableFlush, Option.bind_eq_some_iff] at h ⊢
  obtain ⟨l, hfirst, hrest⟩ := h
  exact ⟨l, trieFirstleaf_mono hle hfirst, flushLeaves_mono hle hle hrest⟩

end Fuel

section Walked

variable {α : Type u} {t n : Node α} {p : Tnode α} {up : List (Tnode α)} {key : TKey}
  {r : Option (TKey × α)}

/-- A walk from here ends with this leaf. -/
def Walks (p : Tnode α) (up : List (Tnode α)) (idx : ℕ) (r : Option (TKey × α)) : Prop :=
  ∃ fuel, ∀ n, fuel ≤ n → leafWalkRcu n p up idx = some r

/-- One turn of the walk. -/
theorem Walks.step {p' : Tnode α} {up' : List (Tnode α)} {idx idx' : ℕ} (h : Walks p' up' idx' r)
    (hturn : ∀ fuel, leafWalkRcu (fuel + 1) p up idx = leafWalkRcu fuel p' up' idx') :
    Walks p up idx r := by
  obtain ⟨fuel, hfuel⟩ := h
  refine ⟨fuel + 1, fun n hle => ?_⟩
  obtain ⟨n, rfl⟩ := Nat.exists_eq_add_of_le' (Nat.le_of_add_left_le hle)
  rw [hturn]
  exact hfuel n (Nat.le_of_succ_le_succ hle)

/-- What the walk finds above a node. -/
def WalksUp (p : Tnode α) (r : Option (TKey × α)) : List (Tnode α) → Prop
  | [] => r = none
  | parent :: up =>
      Walks parent up ((tkeyExtractBits p.key parent.pos parent.bits).toNat + 1) r

/-- The walk through a node finds the first leaf of the slots that are left, and else goes up. -/
def Node.Walked : Node α → Prop
  | .tnode head child => ∀ (up : List (Tnode α)) (r : Option (TKey × α)),
      WalksUp ⟨head, child⟩ r up → ∀ idx ≤ 2 ^ head.bits, Walks ⟨head, child⟩ up idx
        (((List.range' idx (2 ^ head.bits - idx)).flatMap fun i => (child i).leaves).head?.or r)
  | _ => True

/-- By induction on the node, and on the slots that are left. -/
theorem Node.Kept.walked (hn : n.Kept) : n.Walked := by
  induction n with
  | null | leaf => trivial
  | tnode head child ih =>
      obtain ⟨hok, -⟩ := kept_tnode.mp hn
      intro up r hup idx hidx
      obtain ⟨left, hleft⟩ := Nat.exists_eq_add_of_le hidx
      have hcount : 2 ^ head.bits - idx = left := by omega
      rw [hcount]
      clear hcount hidx
      induction left generalizing idx with
      | zero =>
          have hend : ¬ idx < 2 ^ (Tnode.mk head child).bits := by
            change ¬ idx < 2 ^ head.bits
            omega
          rw [List.range'_zero, List.flatMap_nil, List.head?_nil, Option.none_or]
          cases up with
          | nil =>
              refine ⟨1, fun n hle => ?_⟩
              obtain ⟨n, rfl⟩ := Nat.exists_eq_add_of_le' hle
              rw [leafWalkRcu, if_neg hend]
              exact congrArg some hup.symm
          | cons parent up =>
              refine Walks.step hup fun fuel => ?_
              rw [leafWalkRcu, if_neg hend]
      | succ left ih' =>
          have hlt : idx < 2 ^ (Tnode.mk head child).bits := by
            change idx < 2 ^ head.bits
            omega
          have hrest := ih' (idx + 1) (by omega)
          rw [List.range'_succ, List.flatMap_cons, List.head?_append, Option.or_assoc]
          cases hchild : child idx with
          | null =>
              refine Walks.step hrest fun fuel => ?_
              rw [leafWalkRcu.eq_def]
              simp only [if_pos hlt, hchild]
          | leaf key list =>
              refine ⟨1, fun n hle => ?_⟩
              obtain ⟨n, rfl⟩ := Nat.exists_eq_add_of_le' hle
              rw [leafWalkRcu.eq_def]
              simp only [if_pos hlt, hchild]
              rfl
          | tnode head' child' =>
              have hkept := hok.kept idx hlt
              have hfits := hok.fits idx hlt
              have hwalked := ih idx hkept
              dsimp only at hkept hfits
              rw [hchild] at hkept hfits hwalked
              have hslot : (tkeyExtractBits head'.key head.pos head.bits).toNat = idx := by
                rw [toNat_tkeyExtractBits _ hok.within]
                exact (hfits.own_key hkept rfl).2
              have hback : WalksUp ⟨head', child'⟩
                  (((List.range' (idx + 1) left).flatMap fun i => (child i).leaves).head?.or r)
                  (⟨head, child⟩ :: up) := by
                change Walks _ _ ((tkeyExtractBits head'.key head.pos head.bits).toNat + 1) _
                rw [hslot]
                exact hrest
              have hin := hwalked _ _ hback 0 (Nat.zero_le _)
              rw [Nat.sub_zero, ← List.range_eq_range'] at hin
              refine Walks.step hin fun fuel => ?_
              rw [leafWalkRcu.eq_def]
              simp only [if_pos hlt, hchild]

/-- What follows the way of a key in the trie. -/
theorem Path.walksUp (ht : t.Kept) (hpath : Path t key (p :: up) n) :
    Walks p up ((tkeyExtractBits key p.pos p.bits).toNat + 1) (after key (p :: up)).head? := by
  induction up generalizing p n with
  | nil =>
      obtain ⟨hp, -, -, habove, -⟩ := hpath.ok ht
      obtain ⟨-, hlt⟩ := hp.slot key
      have hwalked := (habove.spec ht).1.walked [] none rfl _ (Nat.succ_le_of_lt hlt)
      rw [after, after, List.append_nil]
      rw [Option.or_none] at hwalked
      exact hwalked
  | cons parent up ih =>
      obtain ⟨hp, -, hagree, habove, -⟩ := hpath.ok ht
      obtain ⟨-, hlt⟩ := hp.slot key
      obtain ⟨hparent, -, -, -, -⟩ := habove.ok ht
      have hbehind : parent.pos + parent.bits ≤ p.pos := (habove.spec ht).2.1
      have hslot : tkeyExtractBits p.key parent.pos parent.bits =
          tkeyExtractBits key parent.pos parent.bits := by
        apply BitVec.eq_of_toNat_eq
        rw [toNat_tkeyExtractBits _ hparent.within, toNat_tkeyExtractBits _ hparent.within]
        exact (hagree.mono hbehind).symm.field_eq le_rfl
      have hup : WalksUp p (after key (parent :: up)).head? (parent :: up) := by
        rw [WalksUp, hslot]
        exact ih habove
      have hwalked := (habove.spec ht).1.walked (parent :: up) _ hup _ (Nat.succ_le_of_lt hlt)
      rw [after, List.head?_append]
      exact hwalked

end Walked

section Leaves

variable {t : Trie} {key : TKey} {list : List LeafInfo} {l₁ l₂ : List (TKey × List LeafInfo)}

/-- The way to a leaf divides the leaves as it should. -/
theorem walk_split (ht : t.Kept) (hl : t.leaves = l₁ ++ (key, list) :: l₂) :
    Path t key (walk key t 0 []).1 (.leaf key list) ∧
      before key (walk key t 0 []).1 = l₁ ∧ after key (walk key t 0 []).1 = l₂ := by
  have hmem : (key, list) ∈ t.leaves := hl ▸ List.mem_append_right _ List.mem_cons_self
  have hend := walk_of_found ht (ht.distinct.lookup_iff.mpr hmem)
  obtain ⟨hpath, -⟩ := walk_spec ht key
  rw [hend] at hpath
  have heq := hpath.leaves_eq ht
  have hdistinct := ht.distinct
  rw [Node.leaves, List.append_assoc, List.singleton_append] at heq
  rw [heq] at hdistinct
  obtain ⟨hbefore, -, hafter⟩ := hdistinct.split_unique (heq.symm.trans hl)
  exact ⟨hpath, hbefore, hafter⟩

theorem setLeaf_leaves (ht : t.Kept) (hl : t.leaves = l₁ ++ (key, list) :: l₂)
    (new : List LeafInfo) :
    (setLeaf t key new).Kept ∧ (setLeaf t key new).leaves = l₁ ++ (key, new) :: l₂ := by
  obtain ⟨hpath, hbefore, hafter⟩ := walk_split ht hl
  obtain ⟨hkept, hleaves⟩ := plug_spec (x := .leaf key new) ht hpath trivial rfl (fun _ => rfl)
    trivial fun l hl => by rw [List.mem_singleton.mp hl]; exact Agree.refl key _
  rw [hbefore, hafter, Node.leaves, List.append_assoc, List.singleton_append] at hleaves
  exact ⟨hkept, hleaves⟩

theorem trieLeafRemove_leaves (ht : t.Kept) (hl : t.leaves = l₁ ++ (key, list) :: l₂)
    (mem : Memory) :
    (trieLeafRemove mem t key).Kept ∧ (trieLeafRemove mem t key).leaves = l₁ ++ l₂ := by
  obtain ⟨-, hbefore, hafter⟩ := walk_split ht hl
  obtain ⟨hkept, hleaves⟩ := trieLeafRemove_spec ht key mem
  rw [hbefore, hafter] at hleaves
  exact ⟨hkept, hleaves⟩

/-- `trie_nextleaf` finds the next leaf. -/
theorem trieNextleaf_spec (ht : t.Kept) (hl : t.leaves = l₁ ++ (key, list) :: l₂) :
    ∃ fuel, ∀ n, fuel ≤ n → trieNextleaf n t key = some l₂.head? := by
  obtain ⟨hpath, -, hafter⟩ := walk_split ht hl
  simp only [trieNextleaf]
  cases hup : (walk key t 0 []).1 with
  | nil =>
      rw [hup] at hafter
      exact ⟨0, fun _ _ => by rw [← hafter]; rfl⟩
  | cons p up =>
      rw [hup] at hpath hafter
      obtain ⟨fuel, hfuel⟩ := hpath.walksUp ht
      exact ⟨fuel, fun n hle => by rw [← hafter]; exact hfuel n hle⟩

theorem trieFirstleaf_spec (ht : t.Kept) :
    ∃ fuel, ∀ n, fuel ≤ n → trieFirstleaf n t = some t.leaves.head? := by
  cases t with
  | null | leaf => exact ⟨0, fun _ _ => rfl⟩
  | tnode head child =>
      obtain ⟨fuel, hfuel⟩ := ht.walked [] none rfl 0 (Nat.zero_le _)
      rw [Nat.sub_zero, ← List.range_eq_range', Option.or_none] at hfuel
      exact ⟨fuel, hfuel⟩

end Leaves

section Flush

variable {info : ℕ → FibInfo} {t : Trie} {list : List LeafInfo} {ll : Option TKey}
  {done pend todo : List (TKey × List LeafInfo)}

def isDead (info : ℕ → FibInfo) (fa : FibAlias) : Bool :=
  (info fa.faInfo).fibFlags &&& rtnhFDead ≠ 0

theorem trieFlushList_eq (info : ℕ → FibInfo) (fah : List FibAlias) : trieFlushList info fah =
    (fah.countP (isDead info), fah.filter fun fa => !isDead info fa) := by
  induction fah with
  | nil => rfl
  | cons fa rest ih =>
      rw [trieFlushList, ih]
      by_cases hdead : (info fa.faInfo).fibFlags &&& rtnhFDead ≠ 0
      · have htrue : isDead info fa = true := decide_eq_true hdead
        rw [if_pos hdead, List.countP_cons_of_pos htrue, List.filter_cons_of_neg (by simp [htrue])]
      · have hfalse : isDead info fa = false := decide_eq_false hdead
        rw [if_neg hdead, List.countP_cons_of_neg (by simp [hfalse]),
          List.filter_cons_of_pos (by simp [hfalse])]

theorem trieFlushLeaf_count (info : ℕ → FibInfo) (list : List LeafInfo) :
    (trieFlushLeaf info list).1 = (list.flatMap (·.falh)).countP (isDead info) := by
  induction list with
  | nil => rfl
  | cons li rest ih =>
      rw [trieFlushLeaf, List.flatMap_cons, List.countP_append, ← ih, trieFlushList_eq]

/-- What is left of a list is from the list. -/
theorem mem_trieFlushLeaf {li : LeafInfo} (h : li ∈ (trieFlushLeaf info list).2) :
    li.falh ≠ [] ∧ ∃ old ∈ list, li.plen = old.plen := by
  induction list with
  | nil => cases h
  | cons first rest ih =>
      rw [trieFlushLeaf] at h
      dsimp only at h
      split at h
      next =>
        obtain ⟨hne, old, hold, hplen⟩ := ih h
        exact ⟨hne, old, List.mem_cons_of_mem _ hold, hplen⟩
      next hne =>
        rcases List.mem_cons.mp h with rfl | h
        · exact ⟨hne, first, List.mem_cons_self, rfl⟩
        · obtain ⟨hne, old, hold, hplen⟩ := ih h
          exact ⟨hne, old, List.mem_cons_of_mem _ hold, hplen⟩

theorem Descending.flush (h : Descending list) (info : ℕ → FibInfo) :
    Descending (trieFlushLeaf info list).2 := by
  induction list with
  | nil => exact .nil
  | cons first rest ih =>
      obtain ⟨hfirst, hrest⟩ := List.pairwise_cons.mp h
      rw [trieFlushLeaf]
      dsimp only
      split
      next => exact ih hrest
      next =>
        refine List.pairwise_cons.mpr ⟨fun li hli => ?_, ih hrest⟩
        obtain ⟨-, old, hold, hplen⟩ := mem_trieFlushLeaf hli
        rw [hplen]
        exact hfirst old hold

theorem aliasesAt_cons (li : LeafInfo) (list : List LeafInfo) (p : ℕ) :
    aliasesAt (li :: list) p = if li.plen = p then li.falh else aliasesAt list p := by
  rw [aliasesAt, findLeafInfo, List.find?_cons]
  by_cases hp : li.plen = p
  · simp [hp]
  · simp [hp, aliasesAt, findLeafInfo]

/-- For each prefix length the dead routes are gone. -/
theorem Descending.aliasesAt_flush (h : Descending list) (info : ℕ → FibInfo) (p : ℕ) :
    aliasesAt (trieFlushLeaf info list).2 p =
      (aliasesAt list p).filter fun fa => !isDead info fa := by
  induction list with
  | nil => rfl
  | cons li rest ih =>
      obtain ⟨hfirst, hrest⟩ := List.pairwise_cons.mp h
      rw [trieFlushLeaf, aliasesAt_cons]
      dsimp only
      rw [trieFlushList_eq]
      split
      next hnil =>
        rw [ih hrest]
        by_cases hp : li.plen = p
        · have hnone : findLeafInfo rest p = none := findLeafInfo_eq_none.mpr fun old hold heq =>
            absurd (hfirst old hold) (by omega)
          dsimp only at hnil
          rw [if_pos hp, hnil, aliasesAt, hnone]
          rfl
        · rw [if_neg hp]
      next =>
        rw [aliasesAt_cons, ih hrest]
        split <;> rfl

def keepFilled (ls : List (TKey × List LeafInfo)) : List (TKey × List LeafInfo) :=
  ls.filter fun l => !l.2.isEmpty

def flushed (info : ℕ → FibInfo) (l : TKey × List LeafInfo) : TKey × List LeafInfo :=
  (l.1, (trieFlushLeaf info l.2).2)

/-- The leaf that the loop has left behind, if there is one. -/
def Left (ll : Option TKey) (pend : List (TKey × List LeafInfo)) : Prop :=
  (ll = none ∧ pend = []) ∨ ∃ key list, ll = some key ∧ pend = [(key, list)]

theorem removeEmpty_spec (ht : t.Kept) (hl : t.leaves = done ++ pend ++ todo)
    (hleft : Left ll pend) (mem : Memory) : (removeEmpty mem t ll).Kept ∧
      (removeEmpty mem t ll).leaves = done ++ keepFilled pend ++ todo := by
  rcases hleft with ⟨rfl, rfl⟩ | ⟨key, list, rfl, rfl⟩
  · exact ⟨ht, hl⟩
  · have hl' : t.leaves = done ++ (key, list) :: todo := by
      rw [hl, List.append_assoc, List.singleton_append]
    have hmem : (key, list) ∈ t.leaves := hl' ▸ List.mem_append_right _ List.mem_cons_self
    rw [removeEmpty, fibFindNode_eq ht, ht.distinct.lookup_iff.mpr hmem]
    cases list with
    | nil =>
        obtain ⟨hkept, hleaves⟩ := trieLeafRemove_leaves ht hl' mem
        refine ⟨hkept, hleaves.trans ?_⟩
        simp [keepFilled]
    | cons li rest => exact ⟨ht, hl.trans (by simp [keepFilled])⟩

/-- **The loop of `fib_table_flush`.**  By induction on the leaves that are still to come: what is
in front of the one left behind is done. -/
theorem flushLeaves_spec (info : ℕ → FibInfo) (mem : Memory) (found : ℕ) (ht : t.Kept)
    (hl : t.leaves = done ++ pend ++ todo) (hleft : Left ll pend) : ∃ fuel t', t'.Kept ∧
      t'.leaves = done ++ keepFilled pend ++ keepFilled (todo.map (flushed info)) ∧
      ∀ n, fuel ≤ n → ∀ rounds, todo.length < rounds →
        flushLeaves n info rounds mem t ll todo.head? found =
          some (found + (todo.map fun l => (trieFlushLeaf info l.2).1).sum, t') := by
  induction todo generalizing t ll done pend mem found with
  | nil =>
      obtain ⟨hkept, hleaves⟩ := removeEmpty_spec ht hl hleft (mem.within 0)
      refine ⟨0, _, hkept, hleaves, fun n _ rounds hrounds => ?_⟩
      obtain ⟨rounds, rfl⟩ := Nat.exists_eq_add_of_le' hrounds
      rfl
  | cons l rest ih =>
      obtain ⟨key, list⟩ := l
      obtain ⟨hkept₁, hleaves₁⟩ := setLeaf_leaves ht hl (trieFlushLeaf info list).2
      obtain ⟨hkept₂, hleaves₂⟩ := removeEmpty_spec hkept₁ hleaves₁ hleft (mem.within 0)
      obtain ⟨fuel₁, hnext⟩ := trieNextleaf_spec hkept₂ hleaves₂
      have hsplit : (removeEmpty (mem.within 0) (setLeaf t key (trieFlushLeaf info list).2)
          ll).leaves =
          (done ++ keepFilled pend) ++ [(key, (trieFlushLeaf info list).2)] ++ rest := by
        rw [hleaves₂, List.append_assoc (done ++ keepFilled pend), List.singleton_append]
      obtain ⟨fuel₂, t', hkept, hleaves, hrun⟩ := ih (mem.within 1)
        (found + (trieFlushLeaf info list).1) hkept₂ hsplit (.inr ⟨key, _, rfl, rfl⟩)
      refine ⟨max fuel₁ fuel₂, t', hkept, ?_, fun n hle rounds hrounds => ?_⟩
      · rw [hleaves, List.map_cons, List.append_assoc (done ++ keepFilled pend)]
        congr 1
        rw [keepFilled, keepFilled, keepFilled, ← List.filter_append]
        rfl
      · obtain ⟨rounds, rfl⟩ := Nat.exists_eq_add_of_le' (Nat.one_le_of_lt hrounds)
        rw [List.head?_cons, flushLeaves, hnext n (by omega), Option.bind_some,
          hrun n (by omega) rounds (by rw [List.length_cons] at hrounds; omega), List.map_cons,
          List.sum_cons, Nat.add_assoc]

def Routes.flush (info : ℕ → FibInfo) (r : Routes) : Routes :=
  fun key plen => (r key plen).filter fun fa => !isDead info fa

theorem lookup_flushed {ls : List (TKey × List LeafInfo)} (hls : Distinct ls) (k : TKey) :
    (keepFilled (ls.map (flushed info))).lookup k = (ls.lookup k).bind fun list =>
      if (trieFlushLeaf info list).2 = [] then none else some (trieFlushLeaf info list).2 := by
  induction ls with
  | nil => rfl
  | cons l rest ih =>
      obtain ⟨hfirst, hrest⟩ := List.pairwise_cons.mp hls
      have ih := ih hrest
      rw [keepFilled] at ih ⊢
      rw [List.map_cons, List.filter_cons, List.lookup_cons]
      by_cases hk : k = l.1
      · have hnone : rest.lookup k = none :=
          lookup_eq_none fun x hx heq => hfirst x hx (hk ▸ heq.symm)
        rw [hnone] at ih
        subst hk
        by_cases hnil : (trieFlushLeaf info l.2).2 = []
        · simpa [flushed, hnil] using ih
        · simp [flushed, hnil]
      · have hbeq : (k == l.1) = false := beq_eq_false_iff_ne.mpr hk
        rw [hbeq]
        dsimp only
        rw [← ih]
        split
        next => rw [List.lookup_cons]; simp [flushed, hbeq]
        next => rfl

/-- **Flushing the table**: it ends, whatever memory is there for the nodes that are resized, with
the routes that are not dead, and returns how many are gone. -/
theorem fibTableFlush_spec (ht : TableOk t) (mem : Memory) (info : ℕ → FibInfo) :
    ∃ fuel t', TableOk t' ∧ routes t' = (routes t).flush info ∧
      ∀ n, fuel ≤ n → fibTableFlush n mem info t = some
        ((t.leaves.flatMap fun l => l.2.flatMap (·.falh)).countP (isDead info), t') := by
  obtain ⟨fuel₁, hfirst⟩ := trieFirstleaf_spec ht.kept
  obtain ⟨fuel₂, t', hkept, hleaves, hrun⟩ := flushLeaves_spec info mem 0 ht.kept
    (show t.leaves = [] ++ [] ++ t.leaves from rfl) (.inl ⟨rfl, rfl⟩)
  have hlookup : ∀ k, t'.leaves.lookup k = (t.leaves.lookup k).bind fun list =>
      if (trieFlushLeaf info list).2 = [] then none else some (trieFlushLeaf info list).2 := by
    intro k
    rw [hleaves]
    exact lookup_flushed ht.kept.distinct k
  refine ⟨max (max fuel₁ fuel₂) (t.leaves.length + 1), t', ⟨hkept, fun k list' hfind => ?_⟩, ?_,
    fun n hle => ?_⟩
  · rw [hlookup, Option.bind_eq_some_iff] at hfind
    obtain ⟨list, hfind, hsome⟩ := hfind
    obtain ⟨hdesc, -, heach⟩ := ht.lists k list hfind
    split at hsome
    next => cases hsome
    next hne =>
      cases hsome
      refine ⟨hdesc.flush info, hne, fun li hli => ?_⟩
      obtain ⟨hfilled, old, hold, hplen⟩ := mem_trieFlushLeaf hli
      exact ⟨hfilled, hplen ▸ (heach old hold).2⟩
  · funext k p
    rw [routes, hlookup, Routes.flush, routes]
    cases hfind : t.leaves.lookup k with
    | none => rfl
    | some list =>
        rw [Option.bind_some, Option.getD_some,
          ← (ht.lists k list hfind).descending.aliasesAt_flush info p]
        split
        next hnil => rw [hnil]; rfl
        next => rfl
  · rw [fibTableFlush, hfirst n (by omega), Option.bind_some,
      hrun n (by omega) n (by omega), Nat.zero_add]
    congr 2
    induction t.leaves with
    | nil => rfl
    | cons l rest ih =>
        rw [List.map_cons, List.sum_cons, ih, List.flatMap_cons, List.countP_append,
          trieFlushLeaf_count]

end Flush

end IpAugenblick.FibTrie
