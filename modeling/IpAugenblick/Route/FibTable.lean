/-
# The routing table

`fib_trie.c` keeps a table of routes in the trie.  A leaf has the prefixes that end in zeros from
its key on, the longest one first, and each of them its aliases: the routes to that prefix, by type
of service and priority.  What the trie is for is `Routes`, a list of aliases for every prefix.
Inserting and deleting a route do to the trie what they do there, except that a call may run out of
memory; then no route has changed.

What may change while an alias is in the table is read when it is needed: `info` is the memory that
aliases point to.  `fib_create_info` and `fib_nh_match` are what a call is given.
-/

import IpAugenblick.Route.Update

namespace IpAugenblick.FibTrie

open Lib Lib.BitKey Lib.Keyed

/-- `RTN_UNSPEC` and those that follow. -/
inductive RouteType
  | unspec | unicast | local | broadcast | anycast | multicast | blackhole | unreachable | prohibit
  | throw | nat | xresolve
  deriving DecidableEq, Repr

/-- `struct fib_nh`, as far as it is read here. -/
structure FibNh where
  nhFlags : ℕ
  nhOif : ℕ
  deriving DecidableEq, Repr

/-- `struct fib_info`, as far as it is read here. -/
structure FibInfo where
  fibDead : Bool
  fibFlags : ℕ
  fibProtocol : ℕ
  fibScope : ℕ
  fibPrefsrc : ℕ
  fibPriority : ℕ
  fibNh : List FibNh
  deriving DecidableEq, Repr

/-- `struct fib_alias`; `faInfo` is a pointer. -/
structure FibAlias where
  faTos : ℕ
  faType : RouteType
  faInfo : ℕ
  deriving DecidableEq, Repr

structure LeafInfo where
  plen : ℕ
  maskPlen : TKey
  falh : List FibAlias
  plen_le : plen ≤ 32
  maskPlen_eq : maskPlen = inetMakeMask plen

/-- `struct fib_config`, with the destination in host byte order and what `fib_nh_match` says of a
`struct fib_info`. -/
structure FibConfig where
  fcDstLen : ℕ
  fcDst : TKey
  fcTos : ℕ
  fcType : RouteType
  fcScope : ℕ
  fcPrefsrc : ℕ
  fcProtocol : ℕ
  fcNlflags : ℕ
  fibNhMatch : ℕ → Bool

def nlmFReplace : ℕ := 0x100

def nlmFExcl : ℕ := 0x200

def nlmFCreate : ℕ := 0x400

def nlmFAppend : ℕ := 0x800

def rtnhFDead : ℕ := 1

def rtScopeNowhere : ℕ := 255

def eNOENT : ℤ := 2

def eSRCH : ℤ := 3

def eNOMEM : ℤ := 12

def eEXIST : ℤ := 17

def eINVAL : ℤ := 22

def eNOBUFS : ℤ := 105

/-- `fib_find_alias`: the number of the alias, or how many there are. -/
def fibFindAlias (info : ℕ → FibInfo) (fah : List FibAlias) (tos prio : ℕ) : ℕ :=
  fah.findIdx fun fa => fa.faTos ≤ tos && (prio ≤ (info fa.faInfo).fibPriority || fa.faTos < tos)

/-- The loops over the aliases from number `i` on: where they end, and whether with a hit. -/
def scanAliases (go hit : FibAlias → Bool) : List FibAlias → ℕ → ℕ × Bool
  | [], i => (i, false)
  | fa :: rest, i =>
      if !go fa then (i, false) else if hit fa then (i, true) else scanAliases go hit rest (i + 1)

/-- What `fib_table_insert` is going to do with the aliases of the prefix. -/
inductive AliasChange
  | keep
  | replace (i : ℕ)
  | insert (i : ℕ)
  deriving DecidableEq

/-- How `fib_table_insert` finds that out, with the aliases of the prefix and the new route's
`struct fib_info`; or it fails. -/
def aliasChange (info : ℕ → FibInfo) (cfg : FibConfig) (fi : ℕ) (fah : List FibAlias) :
    Except ℤ AliasChange :=
  let prio := (info fi).fibPriority
  let faFirst := fibFindAlias info fah cfg.fcTos prio
  let same (fa : FibAlias) : Bool :=
    fa.faTos = cfg.fcTos && (info fa.faInfo).fibPriority = prio
  let create (i : ℕ) : Except ℤ AliasChange :=
    if cfg.fcNlflags &&& nlmFCreate = 0 then .error (-eNOENT) else .ok (.insert i)
  if (fah[faFirst]?).any same then
    if cfg.fcNlflags &&& nlmFExcl ≠ 0 then .error (-eEXIST)
    else
      let (fa, faMatch) := scanAliases same (fun fa => fa.faType = cfg.fcType && fa.faInfo = fi)
        (fah.drop faFirst) faFirst
      if cfg.fcNlflags &&& nlmFReplace ≠ 0 then
        if faMatch then if fa = faFirst then .ok .keep else .error (-eEXIST)
        else .ok (.replace faFirst)
      else if faMatch then .error (-eEXIST)
      else if cfg.fcNlflags &&& nlmFAppend = 0 then create faFirst
      else create fa
  else create faFirst

/-- The aliases after that. -/
def AliasChange.apply (cfg : FibConfig) (fi : ℕ) (fah : List FibAlias) :
    AliasChange → List FibAlias
  | .keep => fah
  | .replace i => fah.modify i fun fa => ⟨fa.faTos, cfg.fcType, fi⟩
  | .insert i => fah.insertIdx i ⟨cfg.fcTos, cfg.fcType, fi⟩

/-- The alias that `fib_table_delete` takes out. -/
def aliasToDelete (info : ℕ → FibInfo) (cfg : FibConfig) (fah : List FibAlias) : Option ℕ :=
  let fa := fibFindAlias info fah cfg.fcTos 0
  let (i, found) := scanAliases (fun fa => fa.faTos = cfg.fcTos)
    (fun fa =>
      (cfg.fcType = .unspec || fa.faType = cfg.fcType) &&
      (cfg.fcScope = rtScopeNowhere || (info fa.faInfo).fibScope = cfg.fcScope) &&
      (cfg.fcPrefsrc = 0 || (info fa.faInfo).fibPrefsrc = cfg.fcPrefsrc) &&
      (cfg.fcProtocol = 0 || (info fa.faInfo).fibProtocol = cfg.fcProtocol) &&
      cfg.fibNhMatch fa.faInfo)
    (fah.drop fa) fa
  if found then some i else none

def findLeafInfo (list : List LeafInfo) (plen : ℕ) : Option LeafInfo :=
  list.find? fun li => li.plen = plen

def insertLeafInfo (new : LeafInfo) : List LeafInfo → List LeafInfo
  | [] => [new]
  | li :: rest =>
      if li.plen < new.plen then new :: li :: rest else li :: insertLeafInfo new rest

def leafInfoNew (plen : ℕ) (h : plen ≤ 32) : LeafInfo := ⟨plen, inetMakeMask plen, [], h, rfl⟩

abbrev Trie := Node (List LeafInfo)

def setLeaf (t : Trie) (key : TKey) (list : List LeafInfo) : Trie :=
  plug key (walk key t 0 []).1 (.leaf key list)

/-- `fib_insert_node`; `none` when there is no memory. -/
def fibInsertNode (mem : Memory) (t : Trie) (key : TKey) (plen : ℕ) (h : plen ≤ 32) :
    Option Trie :=
  match fibFindNode t key with
  | some list =>
      if mem [0] then some (setLeaf t key (insertLeafInfo (leafInfoNew plen h) list)) else none
  | none =>
      -- the leaf, its `struct leaf_info` and what the trie needs
      if mem [1] && mem [2] then
        insertLeaf (mem.within 3) key [leafInfoNew plen h] (walk key t 0 []).1 (walk key t 0 []).2
      else none

def setAliases (t : Trie) (key : TKey) (plen : ℕ) (falh : List FibAlias) : Trie :=
  match fibFindNode t key with
  | some list =>
      setLeaf t key (list.map fun li => if li.plen = plen then { li with falh := falh } else li)
  | none => t

/-- `get_fa_head` for a key. -/
def faHead (t : Trie) (key : TKey) (plen : ℕ) : Option (List FibAlias) :=
  (fibFindNode t key).bind fun list => (findLeafInfo list plen).map (·.falh)

/-- The end of `fib_table_insert`, with memory for the alias. -/
def putAliases (mem : Memory) (t : Trie) (key : TKey) (plen : ℕ) (h : plen ≤ 32)
    (falh : List FibAlias) : ℤ × Trie :=
  match faHead t key plen with
  | some _ => (0, setAliases t key plen falh)
  | none =>
      match fibInsertNode mem t key plen h with
      | none => (-eNOMEM, t)
      | some t => (0, setAliases t key plen falh)

/-- `fib_table_insert`, with what `fib_create_info` has returned. -/
def fibTableInsert (mem : Memory) (info : ℕ → FibInfo) (cfg : FibConfig) (fi : Except ℤ ℕ)
    (t : Trie) : ℤ × Trie :=
  if h : cfg.fcDstLen ≤ 32 then
    if cfg.fcDst &&& ~~~inetMakeMask cfg.fcDstLen ≠ 0 then (-eINVAL, t)
    else
      let key := cfg.fcDst &&& inetMakeMask cfg.fcDstLen
      match fi with
      | .error err => (err, t)
      | .ok fi =>
          let fah := (faHead t key cfg.fcDstLen).getD []
          match aliasChange info cfg fi fah with
          | .error err => (err, t)
          | .ok .keep => (0, t)
          | .ok change =>
              if mem [0] then
                putAliases (mem.within 1) t key cfg.fcDstLen h (change.apply cfg fi fah)
              else (-eNOBUFS, t)
  else (-eINVAL, t)

def fibTableDelete (mem : Memory) (info : ℕ → FibInfo) (cfg : FibConfig) (t : Trie) : ℤ × Trie :=
  if cfg.fcDstLen ≤ 32 then
    if cfg.fcDst &&& ~~~inetMakeMask cfg.fcDstLen ≠ 0 then (-eINVAL, t)
    else
      let key := cfg.fcDst &&& inetMakeMask cfg.fcDstLen
      match fibFindNode t key with
      | none => (-eSRCH, t)
      | some list =>
          match findLeafInfo list cfg.fcDstLen with
          | none => (-eSRCH, t)
          | some li =>
              match aliasToDelete info cfg li.falh with
              | none => (-eSRCH, t)
              | some i =>
                  let falh := li.falh.eraseIdx i
                  if falh = [] then
                    let list := list.filter fun li => li.plen ≠ cfg.fcDstLen
                    if list = [] then (0, trieLeafRemove mem t key)
                    else (0, setLeaf t key list)
                  else (0, setAliases t key cfg.fcDstLen falh)
  else (-eINVAL, t)

section Lists

variable {list : List LeafInfo} {new : LeafInfo} {falh : List FibAlias} {plen p : ℕ}

/-- The list with other aliases for a prefix length. -/
def withAliases (list : List LeafInfo) (plen : ℕ) (falh : List FibAlias) : List LeafInfo :=
  list.map fun li => if li.plen = plen then { li with falh := falh } else li

theorem findLeafInfo_withAliases : findLeafInfo (withAliases list plen falh) p =
    (findLeafInfo list p).map fun li =>
      if li.plen = plen then { li with falh := falh } else li := by
  rw [findLeafInfo, withAliases, List.find?_map, findLeafInfo]
  congr 2
  funext li
  simp only [Function.comp_apply]
  split <;> rfl

theorem mem_insertLeafInfo {li : LeafInfo} :
    li ∈ insertLeafInfo new list ↔ li = new ∨ li ∈ list := by
  induction list with
  | nil => simp [insertLeafInfo]
  | cons first rest ih =>
      rw [insertLeafInfo]
      split
      next => exact List.mem_cons
      next =>
        rw [List.mem_cons, List.mem_cons, ih]
        exact or_left_comm

theorem findLeafInfo_eq_none : findLeafInfo list p = none ↔ ∀ li ∈ list, li.plen ≠ p := by
  simp [findLeafInfo]

theorem findLeafInfo_insert (hnew : findLeafInfo list new.plen = none) :
    findLeafInfo (insertLeafInfo new list) p =
      if p = new.plen then some new else findLeafInfo list p := by
  induction list with
  | nil =>
      by_cases hp : p = new.plen
      · simp [insertLeafInfo, findLeafInfo, hp]
      · simp [insertLeafInfo, findLeafInfo, hp, Ne.symm hp]
  | cons first rest ih =>
      have hnone := findLeafInfo_eq_none.mp hnew
      have hfirst := hnone first List.mem_cons_self
      have hrest := ih (findLeafInfo_eq_none.mpr fun li hli =>
        hnone li (List.mem_cons_of_mem _ hli))
      rw [insertLeafInfo]
      split
      next =>
        by_cases hp : p = new.plen
        · simp [findLeafInfo, hp]
        · simp [findLeafInfo, hp, Ne.symm hp]
      next =>
        rw [findLeafInfo, List.find?_cons]
        by_cases hp : first.plen = p
        · have hne : ¬ p = new.plen := fun heq => hfirst (hp.trans heq)
          simp [findLeafInfo, hp, hne]
        · rw [decide_eq_false hp]
          dsimp only
          rw [← findLeafInfo, hrest]
          simp [findLeafInfo, hp]

theorem findLeafInfo_filter : findLeafInfo (list.filter fun li => li.plen ≠ plen) p =
    if p = plen then none else findLeafInfo list p := by
  rw [findLeafInfo, List.find?_filter, findLeafInfo]
  by_cases hp : p = plen
  · rw [if_pos hp, List.find?_eq_none, hp]
    simp
  · rw [if_neg hp]
    congr 1
    funext li
    by_cases hli : li.plen = p
    · simp [hli, hp]
    · simp [hli]

/-- The prefixes are in the list from the longest to the shortest. -/
def Descending (list : List LeafInfo) : Prop := list.Pairwise fun a b => b.plen < a.plen

theorem Descending.insert (h : Descending list) (hnew : findLeafInfo list new.plen = none) :
    Descending (insertLeafInfo new list) := by
  induction list with
  | nil => exact List.pairwise_singleton _ _
  | cons first rest ih =>
      obtain ⟨hfirst, hrest⟩ := List.pairwise_cons.mp h
      have hnone := findLeafInfo_eq_none.mp hnew
      have hne := hnone first List.mem_cons_self
      rw [insertLeafInfo]
      split
      next hlt =>
        refine List.pairwise_cons.mpr ⟨fun li hli => ?_, h⟩
        rcases List.mem_cons.mp hli with rfl | hli
        · exact hlt
        · exact (hfirst li hli).trans hlt
      next hge =>
        refine List.pairwise_cons.mpr ⟨fun li hli => ?_, ih hrest
          (findLeafInfo_eq_none.mpr fun li hli => hnone li (List.mem_cons_of_mem _ hli))⟩
        rcases mem_insertLeafInfo.mp hli with rfl | hli
        · omega
        · exact hfirst li hli

theorem Descending.withAliases (h : Descending list) :
    Descending (withAliases list plen falh) := by
  refine List.pairwise_map.mpr (h.imp fun {a b} hlt => ?_)
  split <;> split <;> exact hlt

/-- The aliases that a list has for a prefix length. -/
def aliasesAt (list : List LeafInfo) (plen : ℕ) : List FibAlias :=
  ((findLeafInfo list plen).map (·.falh)).getD []

theorem aliasesAt_withAliases (h : findLeafInfo list plen ≠ none) (p : ℕ) :
    aliasesAt (withAliases list plen falh) p =
      if p = plen then falh else aliasesAt list p := by
  rw [aliasesAt, findLeafInfo_withAliases, aliasesAt]
  cases hfind : findLeafInfo list p with
  | none =>
      have hne : ¬ p = plen := fun heq => h (heq ▸ hfind)
      simp [hne]
  | some li =>
      have hli : li.plen = p := by simpa using List.find?_some hfind
      by_cases hp : p = plen
      · simp [hp, hli]
      · simp [hp, hli]

theorem aliasesAt_insert (h : findLeafInfo list new.plen = none) (hnil : new.falh = []) (p : ℕ) :
    aliasesAt (insertLeafInfo new list) p = aliasesAt list p := by
  rw [aliasesAt, findLeafInfo_insert h, aliasesAt]
  split
  next heq => rw [heq, h]; simp [hnil]
  next => rfl

theorem aliasesAt_filter (p : ℕ) : aliasesAt (list.filter fun li => li.plen ≠ plen) p =
    if p = plen then [] else aliasesAt list p := by
  rw [aliasesAt, findLeafInfo_filter, aliasesAt]
  split <;> rfl

end Lists

section Leaves

variable {t t' : Trie} {key : TKey} {list : List LeafInfo} {mem : Memory} {plen : ℕ}

/-- The walk ends at a leaf that is there. -/
theorem walk_of_found (ht : t.Kept) (hfind : t.leaves.lookup key = some list) :
    (walk key t 0 []).2 = .leaf key list := by
  have hfound := fibFindNode_eq ht key
  rw [hfind, fibFindNode] at hfound
  cases hwalk : (walk key t 0 []).2 with
  | null | tnode =>
      rw [hwalk] at hfound
      cases hfound
  | leaf k list' =>
      rw [hwalk] at hfound
      dsimp only at hfound
      split at hfound
      next heq => rw [heq, Option.some.inj hfound]
      next => cases hfound

/-- A leaf's list is written, and no other. -/
theorem setLeaf_spec (ht : t.Kept) (hfind : t.leaves.lookup key = some list)
    (new : List LeafInfo) :
    (setLeaf t key new).Kept ∧ ∀ k, (setLeaf t key new).leaves.lookup k =
      Function.update (fun k => t.leaves.lookup k) key (some new) k := by
  obtain ⟨hpath, -⟩ := walk_spec ht key
  rw [walk_of_found ht hfind] at hpath
  obtain ⟨hkept, hleaves⟩ := plug_spec (x := .leaf key new) ht hpath trivial rfl (fun _ => rfl)
    trivial fun l hl => by rw [List.mem_singleton.mp hl]; exact Agree.refl key _
  have hxs := hpath.leaves_eq ht
  have hbeside := hpath.beside ht
  rw [← setLeaf] at hkept hleaves
  refine ⟨hkept, ht.distinct.lookup_insert hkept.distinct fun x => ?_⟩
  rw [hleaves, hxs]
  simp only [Node.leaves, List.mem_append, List.mem_singleton]
  constructor
  · rintro ((hx | hx) | hx)
    · exact .inr ⟨hbeside x (.inl hx), .inl (.inl hx)⟩
    · exact .inl hx
    · exact .inr ⟨hbeside x (.inr hx), .inr hx⟩
  · rintro (hx | ⟨hne, (hx | hx) | hx⟩)
    · exact .inl (.inr hx)
    · exact .inl (.inl hx)
    · exact absurd (congrArg Prod.fst hx) hne
    · exact .inr hx

/-- A leaf is put in, and no other is changed. -/
theorem insertLeaf_lookup {new : List LeafInfo} (ht : t.Kept)
    (hfind : t.leaves.lookup key = none)
    (hrun : insertLeaf mem key new (walk key t 0 []).1 (walk key t 0 []).2 = some t') :
    t'.Kept ∧ ∀ k, t'.leaves.lookup k =
      Function.update (fun k => t.leaves.lookup k) key (some new) k := by
  obtain ⟨hpath, hother⟩ := walk_spec ht key
  have hnew : ∀ l ∈ (walk key t 0 []).2.leaves, l.1 ≠ key := by
    intro l hl hkey
    subst hkey
    have hsome := ht.distinct.lookup_iff.mpr (hpath.mem_leaves ht hl)
    rw [hfind] at hsome
    cases hsome
  obtain ⟨hkept, mid, hleaves, hmid⟩ := insertLeaf_spec ht hpath hnew
    (fun {head child} heq => walk_end ht .root heq) hrun
  have hxs := hpath.leaves_eq ht
  have hbeside := hpath.beside ht
  refine ⟨hkept, ht.distinct.lookup_insert hkept.distinct fun x => ?_⟩
  rw [hleaves, hxs]
  simp only [List.mem_append, hmid]
  constructor
  · rintro ((hx | hx | hx) | hx)
    · exact .inr ⟨hbeside x (.inl hx), .inl (.inl hx)⟩
    · exact .inl hx
    · exact .inr ⟨hnew x hx, .inl (.inr hx)⟩
    · exact .inr ⟨hbeside x (.inr hx), .inr hx⟩
  · rintro (hx | ⟨-, (hx | hx) | hx⟩)
    · exact .inl (.inr (.inl hx))
    · exact .inl (.inl hx)
    · exact .inl (.inr (.inr hx))
    · exact .inr hx

/-- A leaf is taken out, and no other is changed. -/
theorem trieLeafRemove_lookup (ht : t.Kept) (hfind : t.leaves.lookup key = some list)
    (mem : Memory) :
    (trieLeafRemove mem t key).Kept ∧ ∀ k, (trieLeafRemove mem t key).leaves.lookup k =
      Function.update (fun k => t.leaves.lookup k) key none k := by
  obtain ⟨hkept, hleaves⟩ := trieLeafRemove_spec ht key mem
  obtain ⟨hpath, -⟩ := walk_spec ht key
  have hxs := hpath.leaves_eq ht
  have hbeside := hpath.beside ht
  refine ⟨hkept, ht.distinct.lookup_erase hkept.distinct fun x => ?_⟩
  rw [hleaves, hxs, walk_of_found ht hfind]
  simp only [Node.leaves, List.mem_append, List.mem_singleton]
  constructor
  · rintro (hx | hx)
    · exact ⟨hbeside x (.inl hx), .inl (.inl hx)⟩
    · exact ⟨hbeside x (.inr hx), .inr hx⟩
  · rintro ⟨hne, (hx | hx) | hx⟩
    · exact .inl hx
    · exact absurd (congrArg Prod.fst hx) hne
    · exact .inr hx

/-- What `fib_insert_node` does: a prefix without aliases is there. -/
theorem fibInsertNode_spec (ht : t.Kept) {h : plen ≤ 32}
    (hrun : fibInsertNode mem t key plen h = some t') :
    t'.Kept ∧ ∀ k, t'.leaves.lookup k = Function.update (fun k => t.leaves.lookup k) key
      (some (insertLeafInfo (leafInfoNew plen h) ((t.leaves.lookup key).getD []))) k := by
  rw [fibInsertNode, fibFindNode_eq ht] at hrun
  cases hfind : t.leaves.lookup key with
  | some list =>
      rw [hfind] at hrun
      dsimp only at hrun
      split at hrun
      next =>
        cases hrun
        exact setLeaf_spec ht hfind _
      next => cases hrun
  | none =>
      rw [hfind] at hrun
      dsimp only at hrun
      split at hrun
      next => exact insertLeaf_lookup ht hfind hrun
      next => cases hrun

end Leaves

/-- A table of routes: the aliases of each prefix. -/
abbrev Routes := TKey → ℕ → List FibAlias

def Routes.write (r : Routes) (key : TKey) (plen : ℕ) (falh : List FibAlias) : Routes :=
  fun k p => if k = key ∧ p = plen then falh else r k p

def Routes.insert (info : ℕ → FibInfo) (cfg : FibConfig) (fi : Except ℤ ℕ) (r : Routes) :
    ℤ × Routes :=
  if 32 < cfg.fcDstLen ∨ keep cfg.fcDst cfg.fcDstLen ≠ cfg.fcDst then (-eINVAL, r)
  else
    match fi with
    | .error err => (err, r)
    | .ok fi =>
        match aliasChange info cfg fi (r cfg.fcDst cfg.fcDstLen) with
        | .error err => (err, r)
        | .ok change => (0, r.write cfg.fcDst cfg.fcDstLen
            (change.apply cfg fi (r cfg.fcDst cfg.fcDstLen)))

/-- What deleting a route does to a table of routes. -/
def Routes.delete (info : ℕ → FibInfo) (cfg : FibConfig) (r : Routes) : ℤ × Routes :=
  if 32 < cfg.fcDstLen ∨ keep cfg.fcDst cfg.fcDstLen ≠ cfg.fcDst then (-eINVAL, r)
  else
    match aliasToDelete info cfg (r cfg.fcDst cfg.fcDstLen) with
    | none => (-eSRCH, r)
    | some i => (0, r.write cfg.fcDst cfg.fcDstLen ((r cfg.fcDst cfg.fcDstLen).eraseIdx i))

def routes (t : Trie) : Routes := fun key plen => aliasesAt ((t.leaves.lookup key).getD []) plen

/-- What holds of a leaf's list: nothing empty is kept, and the key has no bits behind its
prefixes. -/
structure ListOk (key : TKey) (list : List LeafInfo) : Prop where
  descending : Descending list
  filled : list ≠ []
  each : ∀ li ∈ list, li.falh ≠ [] ∧ keep key li.plen = key

/-- What holds of the trie between two calls.  A rebalance in the middle of a call may leave a
node with one child for a moment, and a leaf with an empty list. -/
structure TableOk (t : Trie) : Prop where
  kept : t.Kept
  lists : ∀ key list, t.leaves.lookup key = some list → ListOk key list

/-- One leaf has a new list. -/
theorem TableOk.update {t t' : Trie} {key : TKey} {plen : ℕ} {falh : List FibAlias}
    (ht : TableOk t) (hkept : t'.Kept) (list : Option (List LeafInfo))
    (hlookup : ∀ k, t'.leaves.lookup k = Function.update (fun k => t.leaves.lookup k) key list k)
    (hlist : ∀ list', list = some list' → ListOk key list')
    (haliases : ∀ p, aliasesAt (list.getD []) p =
      if p = plen then falh else aliasesAt ((t.leaves.lookup key).getD []) p) :
    TableOk t' ∧ routes t' = (routes t).write key plen falh := by
  refine ⟨⟨hkept, fun k list' hfind => ?_⟩, ?_⟩
  · rw [hlookup] at hfind
    by_cases hk : k = key
    · rw [hk, Function.update_self] at hfind
      exact hk ▸ hlist list' hfind
    · rw [Function.update_of_ne hk] at hfind
      exact ht.lists k list' hfind
  · funext k p
    rw [routes, hlookup, Routes.write]
    by_cases hk : k = key
    · rw [hk, Function.update_self, haliases]
      simp [routes]
    · rw [Function.update_of_ne hk, if_neg fun h => hk h.1]
      rfl

theorem and_not_eq_zero_iff (a m : TKey) : a &&& ~~~m = 0 ↔ a &&& m = a := by
  have hbool (x y : Bool) : (x && !y) = false ↔ (x && y) = x := by
    cases x <;> cases y <;> decide
  constructor
  all_goals
    intro h
    apply BitVec.eq_of_getLsbD_eq
    intro i hi
    have hbit := congrArg (fun x : TKey => x.getLsbD i) h
    simp only [BitVec.getLsbD_and, BitVec.getLsbD_not, hi, decide_true, Bool.true_and] at hbit ⊢
  · exact (hbool _ _).mp (hbit.trans BitVec.getLsbD_zero)
  · exact ((hbool _ _).mpr hbit).trans BitVec.getLsbD_zero.symm

/-- A destination that passes the check is its own prefix. -/
theorem dst_check (dst : TKey) {plen : ℕ} (h : plen ≤ 32) :
    dst &&& ~~~inetMakeMask plen ≠ 0 ↔ keep dst plen ≠ dst := by
  rw [Ne, and_not_eq_zero_iff, and_inetMakeMask dst h]

section Calls

variable {t t' : Trie} {key : TKey} {list : List LeafInfo} {mem : Memory} {info : ℕ → FibInfo}
  {cfg : FibConfig} {fi : ℕ} {change : AliasChange} {fah falh : List FibAlias} {plen : ℕ}
  {li : LeafInfo}

theorem ListOk.withAliases (hdesc : Descending list) (hfilled : list ≠ [])
    (heach : ∀ li ∈ list, (li.plen = plen ∨ li.falh ≠ []) ∧ keep key li.plen = key)
    (hfalh : falh ≠ []) : ListOk key (withAliases list plen falh) := by
  refine ⟨hdesc.withAliases, by simpa [FibTrie.withAliases] using hfilled, fun li hli => ?_⟩
  obtain ⟨old, hold, rfl⟩ := List.mem_map.mp hli
  obtain ⟨hkeep, hkey⟩ := heach old hold
  split
  next => exact ⟨hfalh, hkey⟩
  next hne => exact ⟨hkeep.resolve_left hne, hkey⟩

theorem AliasChange.apply_ne_nil (h : fah ≠ []) : change.apply cfg fi fah ≠ [] := by
  have hpos := List.length_pos_of_ne_nil h
  apply List.ne_nil_of_length_pos
  cases change with
  | keep => exact hpos
  | replace i => rwa [AliasChange.apply, List.length_modify]
  | insert i =>
      rw [AliasChange.apply, List.length_insertIdx]
      split <;> omega

/-- The first alias of a prefix can only be put in. -/
theorem aliasChange_nil (h : aliasChange info cfg fi [] = .ok change) : change = .insert 0 := by
  simp only [aliasChange, fibFindAlias, List.findIdx_nil, List.getElem?_nil, Option.any_none,
    Bool.false_eq_true, if_false] at h
  split at h
  next => cases h
  next => exact (Except.ok.inj h).symm

/-- The aliases of a prefix that is there are written. -/
theorem TableOk.setAliases (ht : TableOk t) (hfind : t.leaves.lookup key = some list)
    (hli : findLeafInfo list plen ≠ none) (hfalh : falh ≠ []) :
    TableOk (setAliases t key plen falh) ∧
      routes (FibTrie.setAliases t key plen falh) = (routes t).write key plen falh := by
  obtain ⟨hkept, hlookup⟩ := setLeaf_spec ht.kept hfind
    (FibTrie.withAliases list plen falh)
  have hset : FibTrie.setAliases t key plen falh =
      setLeaf t key (FibTrie.withAliases list plen falh) := by
    rw [FibTrie.setAliases, fibFindNode_eq ht.kept, hfind]
    rfl
  obtain ⟨hdesc, hfilled, heach⟩ := ht.lists key list hfind
  rw [hset]
  refine ht.update hkept _ hlookup (fun list' heq => ?_) fun p => ?_
  · rw [← Option.some.inj heq]
    exact ListOk.withAliases hdesc hfilled (fun li hli => ⟨.inr (heach li hli).1, (heach li hli).2⟩)
      hfalh
  · rw [hfind]
    exact aliasesAt_withAliases hli p

/-- A prefix that is not there is put in with its aliases. -/
theorem TableOk.insertPrefix (ht : TableOk t) {h : plen ≤ 32} (hkey : keep key plen = key)
    (hnone : findLeafInfo ((t.leaves.lookup key).getD []) plen = none) (hfalh : falh ≠ [])
    (hrun : fibInsertNode mem t key plen h = some t') :
    TableOk (FibTrie.setAliases t' key plen falh) ∧
      routes (FibTrie.setAliases t' key plen falh) = (routes t).write key plen falh := by
  obtain ⟨hkept, hlookup⟩ := fibInsertNode_spec ht.kept hrun
  generalize hlist : (t.leaves.lookup key).getD [] = list at hlookup hnone
  have hfind : t'.leaves.lookup key = some (insertLeafInfo (leafInfoNew plen h) list) := by
    rw [hlookup, Function.update_self]
  have hset : FibTrie.setAliases t' key plen falh = setLeaf t' key
      (FibTrie.withAliases (insertLeafInfo (leafInfoNew plen h) list) plen falh) := by
    rw [FibTrie.setAliases, fibFindNode_eq hkept, hfind]
    rfl
  obtain ⟨hkept', hlookup'⟩ := setLeaf_spec hkept hfind
    (FibTrie.withAliases (insertLeafInfo (leafInfoNew plen h) list) plen falh)
  have hold : Descending list ∧ ∀ li ∈ list, li.falh ≠ [] ∧ keep key li.plen = key := by
    cases hlook : t.leaves.lookup key with
    | none =>
        rw [hlook] at hlist
        subst hlist
        exact ⟨List.Pairwise.nil, List.forall_mem_nil _⟩
    | some list' =>
        rw [hlook] at hlist
        obtain rfl : list' = list := hlist
        exact ⟨(ht.lists key _ hlook).descending, (ht.lists key _ hlook).each⟩
  rw [hset]
  refine ht.update hkept' (some (FibTrie.withAliases (insertLeafInfo (leafInfoNew plen h) list)
    plen falh)) (fun k => ?_) (fun list' heq => ?_) fun p => ?_
  · rw [hlookup']
    by_cases hk : k = key
    · rw [hk, Function.update_self, Function.update_self]
    · rw [Function.update_of_ne hk, Function.update_of_ne hk, hlookup, Function.update_of_ne hk]
  · rw [← Option.some.inj heq]
    refine ListOk.withAliases (hold.1.insert hnone)
      (List.ne_nil_of_mem (mem_insertLeafInfo.mpr (.inl rfl))) (fun li hli => ?_) hfalh
    rcases mem_insertLeafInfo.mp hli with rfl | hli
    · exact ⟨.inl rfl, hkey⟩
    · exact ⟨.inr (hold.2 li hli).1, (hold.2 li hli).2⟩
  · have hthere : findLeafInfo (insertLeafInfo (leafInfoNew plen h) list) plen ≠ none := by
      rw [findLeafInfo_insert hnone, if_pos (show plen = (leafInfoNew plen h).plen from rfl)]
      exact Option.some_ne_none _
    rw [hlist, Option.getD_some, aliasesAt_withAliases hthere, aliasesAt_insert hnone rfl]

def outOfMemory (ret : ℤ) : Bool := ret = -eNOMEM || ret = -eNOBUFS

theorem write_same (r : Routes) (key : TKey) (plen : ℕ) : r.write key plen (r key plen) = r := by
  funext k p
  rw [Routes.write]
  split
  next h => rw [h.1, h.2]
  next => rfl

theorem faHead_eq (ht : t.Kept) : faHead t key plen =
    (findLeafInfo ((t.leaves.lookup key).getD []) plen).map (·.falh) := by
  rw [faHead, fibFindNode_eq ht]
  cases t.leaves.lookup key <;> rfl

/-- What a call may come to: the table has done the same, or there is no memory and nothing is
changed. -/
def Follows (t : Trie) (out : ℤ × Trie) (spec : ℤ × Routes) : Prop :=
  TableOk out.2 ∧ ((out.1, routes out.2) = spec ∨ outOfMemory out.1 = true ∧ out.2 = t)

theorem TableOk.putAliases (ht : TableOk t) (mem : Memory) (h : plen ≤ 32)
    (hkey : keep key plen = key) (hfalh : falh ≠ []) :
    Follows t (putAliases mem t key plen h falh) (0, (routes t).write key plen falh) := by
  rw [FibTrie.putAliases, faHead_eq ht.kept]
  cases hli : findLeafInfo ((t.leaves.lookup key).getD []) plen with
  | some li =>
      cases hfind : t.leaves.lookup key with
      | none =>
          rw [hfind] at hli
          cases hli
      | some list =>
          rw [hfind, Option.getD_some] at hli
          obtain ⟨hok, hroutes⟩ := ht.setAliases hfind (hli ▸ Option.some_ne_none li) hfalh
          exact ⟨hok, .inl (congrArg (Prod.mk 0) hroutes)⟩
  | none =>
      dsimp only [Option.map_none]
      cases hrun : fibInsertNode mem t key plen h with
      | none => exact ⟨ht, .inr ⟨rfl, rfl⟩⟩
      | some t' =>
          obtain ⟨hok, hroutes⟩ := ht.insertPrefix hkey hli hfalh hrun
          exact ⟨hok, .inl (congrArg (Prod.mk 0) hroutes)⟩

/-- The check of the destination that both calls begin with. -/
theorem dst_ok_iff (cfg : FibConfig) : ¬ (32 < cfg.fcDstLen ∨
    keep cfg.fcDst cfg.fcDstLen ≠ cfg.fcDst) ↔
      cfg.fcDstLen ≤ 32 ∧ keep cfg.fcDst cfg.fcDstLen = cfg.fcDst := by
  rw [not_or, Nat.not_lt, not_not]

/-- **Inserting a route.** -/
theorem fibTableInsert_spec (ht : TableOk t) (mem : Memory) (info : ℕ → FibInfo) (cfg : FibConfig)
    (fi : Except ℤ ℕ) :
    Follows t (fibTableInsert mem info cfg fi t) (Routes.insert info cfg fi (routes t)) := by
  rw [fibTableInsert, Routes.insert.eq_def]
  by_cases hle : cfg.fcDstLen ≤ 32
  case neg =>
    rw [dif_neg hle, if_pos (.inl (Nat.lt_of_not_le hle))]
    exact ⟨ht, .inl rfl⟩
  rw [dif_pos hle]
  by_cases hdst : keep cfg.fcDst cfg.fcDstLen = cfg.fcDst
  case neg =>
    rw [if_pos ((dst_check _ hle).mpr hdst), if_pos (.inr hdst)]
    exact ⟨ht, .inl rfl⟩
  rw [if_neg fun h => (dst_check _ hle).mp h hdst, if_neg ((dst_ok_iff cfg).mpr ⟨hle, hdst⟩)]
  simp only [and_inetMakeMask _ hle, hdst]
  cases fi with
  | error err => exact ⟨ht, .inl rfl⟩
  | ok fi =>
      have haliases : (faHead t cfg.fcDst cfg.fcDstLen).getD [] =
          routes t cfg.fcDst cfg.fcDstLen := by
        rw [faHead_eq ht.kept, routes, aliasesAt]
      dsimp only
      rw [haliases]
      generalize hfah : routes t cfg.fcDst cfg.fcDstLen = fah
      have hdone : ∀ change, aliasChange info cfg fi fah = .ok change → change ≠ .keep →
          Follows t (if mem [0] then FibTrie.putAliases (mem.within 1) t cfg.fcDst cfg.fcDstLen hle
            (change.apply cfg fi fah) else (-eNOBUFS, t))
            (0, (routes t).write cfg.fcDst cfg.fcDstLen (change.apply cfg fi fah)) := by
        intro change hchange hkeep
        have hne : change.apply cfg fi fah ≠ [] := by
          cases fah with
          | nil =>
              rw [aliasChange_nil hchange]
              exact List.cons_ne_nil _ _
          | cons fa rest => exact AliasChange.apply_ne_nil (List.cons_ne_nil _ _)
        split
        next => exact ht.putAliases _ hle hdst hne
        next => exact ⟨ht, .inr ⟨rfl, rfl⟩⟩
      cases hchange : aliasChange info cfg fi fah with
      | error err => exact ⟨ht, .inl rfl⟩
      | ok change =>
          cases change with
          | keep =>
              refine ⟨ht, .inl ?_⟩
              change ((0 : ℤ), routes t) = (0, (routes t).write cfg.fcDst cfg.fcDstLen fah)
              rw [← hfah, write_same]
          | replace i => exact hdone _ hchange nofun
          | insert i => exact hdone _ hchange nofun

/-- A prefix is taken out, and with the last one the leaf. -/
theorem TableOk.removePrefix (ht : TableOk t) (mem : Memory) (plen : ℕ)
    (hfind : t.leaves.lookup key = some list) :
    Follows t
      (if (list.filter fun li => li.plen ≠ plen) = [] then (0, trieLeafRemove mem t key)
      else (0, setLeaf t key (list.filter fun li => li.plen ≠ plen)))
      (0, (routes t).write key plen []) := by
  split
  next hempty =>
    obtain ⟨hkept, hlookup⟩ := trieLeafRemove_lookup ht.kept hfind mem
    obtain ⟨hok, hroutes⟩ := ht.update hkept none hlookup
      (fun list' heq => by cases heq) fun p => by
        rw [hfind, Option.getD_none, Option.getD_some, ← hempty]
        exact aliasesAt_filter p
    exact ⟨hok, .inl (congrArg (Prod.mk 0) hroutes)⟩
  next hsome =>
    obtain ⟨hkept, hlookup⟩ := setLeaf_spec ht.kept hfind (list.filter fun li => li.plen ≠ plen)
    obtain ⟨hdesc, -, heach⟩ := ht.lists _ list hfind
    have hlist : ListOk key (list.filter fun li => li.plen ≠ plen) :=
      ⟨hdesc.filter _, hsome, fun li hli => heach li (List.mem_filter.mp hli).1⟩
    obtain ⟨hok, hroutes⟩ := ht.update hkept _ hlookup
      (fun list' heq => Option.some.inj heq ▸ hlist) fun p => by
        rw [hfind, Option.getD_some, Option.getD_some]
        exact aliasesAt_filter p
    exact ⟨hok, .inl (congrArg (Prod.mk 0) hroutes)⟩

theorem routes_of_lookup (hfind : t.leaves.lookup key = some list) (plen : ℕ) :
    routes t key plen = aliasesAt list plen := by
  rw [routes, hfind, Option.getD_some]

/-- **Deleting a route.** -/
theorem fibTableDelete_spec (ht : TableOk t) (mem : Memory) (info : ℕ → FibInfo)
    (cfg : FibConfig) :
    Follows t (fibTableDelete mem info cfg t) (Routes.delete info cfg (routes t)) := by
  rw [fibTableDelete, Routes.delete]
  by_cases hle : cfg.fcDstLen ≤ 32
  case neg =>
    rw [if_neg hle, if_pos (.inl (Nat.lt_of_not_le hle))]
    exact ⟨ht, .inl rfl⟩
  rw [if_pos hle]
  by_cases hdst : keep cfg.fcDst cfg.fcDstLen = cfg.fcDst
  case neg =>
    rw [if_pos ((dst_check _ hle).mpr hdst), if_pos (.inr hdst)]
    exact ⟨ht, .inl rfl⟩
  rw [if_neg fun h => (dst_check _ hle).mp h hdst, if_neg ((dst_ok_iff cfg).mpr ⟨hle, hdst⟩)]
  simp only [and_inetMakeMask _ hle, hdst, fibFindNode_eq ht.kept]
  cases hfind : t.leaves.lookup cfg.fcDst with
  | none =>
      have hnil : routes t cfg.fcDst cfg.fcDstLen = [] := by
        rw [routes, hfind]
        rfl
      rw [hnil]
      exact ⟨ht, .inl rfl⟩
  | some list =>
      rw [routes_of_lookup hfind, aliasesAt]
      dsimp only
      cases hli : findLeafInfo list cfg.fcDstLen with
      | none => exact ⟨ht, .inl rfl⟩
      | some li =>
          simp only [Option.map_some, Option.getD_some]
          cases aliasToDelete info cfg li.falh with
          | none => exact ⟨ht, .inl rfl⟩
          | some i =>
              dsimp only
              split
              next hnil =>
                rw [hnil]
                exact ht.removePrefix mem cfg.fcDstLen hfind
              next hne =>
                obtain ⟨hok, hroutes⟩ := ht.setAliases hfind (hli ▸ Option.some_ne_none li) hne
                exact ⟨hok, .inl (congrArg (Prod.mk 0) hroutes)⟩

end Calls

end IpAugenblick.FibTrie
