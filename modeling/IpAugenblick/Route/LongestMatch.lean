/-
# The longest match

What `fib_table_lookup` finds for an address, after any calls that change the table: of
the prefixes of the address, from the longest to the shortest, the first that has a route which
will do.  The trie does not show: the table of routes alone decides.
-/

import IpAugenblick.Route.Calls
import IpAugenblick.Route.Lookup

namespace IpAugenblick.FibTrie

open Lib Lib.BitKey Lib.Keyed

def eACCES : ℤ := 13

def eAGAIN : ℤ := 11

def eHOSTUNREACH : ℤ := 113

/-- `fib_props[].error`. -/
def RouteType.error : RouteType → ℤ
  | .blackhole => -eINVAL
  | .unreachable => -eHOSTUNREACH
  | .prohibit => -eACCES
  | .throw => -eAGAIN
  | .nat => -eINVAL
  | .xresolve => -eINVAL
  | _ => 0

/-- `struct flowi4`, with the destination in host byte order. -/
structure Flowi4 where
  daddr : TKey
  flowi4Tos : ℕ
  flowi4Scope : ℕ
  flowi4Oif : ℕ

structure FibResult where
  prefixlen : ℕ
  nhSel : ℕ
  type : RouteType
  scope : ℕ
  fi : ℕ
  deriving DecidableEq, Repr

inductive LookupAnswer
  | error (err : ℤ)
  | found (res : FibResult)
  deriving DecidableEq, Repr

variable {info : ℕ → FibInfo} {flp : Flowi4}

/-- The body of the loop over the aliases in `check_leaf`. -/
def checkAlias (info : ℕ → FibInfo) (flp : Flowi4) (plen : ℕ) (fa : FibAlias) :
    Option LookupAnswer :=
  let fi := info fa.faInfo
  if fa.faTos ≠ 0 ∧ fa.faTos ≠ flp.flowi4Tos then none
  else if fi.fibDead then none
  else if fi.fibScope < flp.flowi4Scope then none
  else if fa.faType.error ≠ 0 then some (.error fa.faType.error)
  else if fi.fibFlags &&& rtnhFDead ≠ 0 then none
  else
    (fi.fibNh.findIdx? fun nh =>
      nh.nhFlags &&& rtnhFDead = 0 && (flp.flowi4Oif = 0 || flp.flowi4Oif = nh.nhOif)).map
        fun nhsel => .found ⟨plen, nhsel, fa.faType, fi.fibScope, fa.faInfo⟩

/-- `check_leaf`; `none` is its 1. -/
def checkLeaf (info : ℕ → FibInfo) (flp : Flowi4) (key : TKey) (list : List LeafInfo) :
    Option LookupAnswer :=
  list.findSome? fun li =>
    if key ≠ flp.daddr &&& li.maskPlen then none
    else li.falh.findSome? (checkAlias info flp li.plen)

/-- What a table of routes answers for an address: the longest of its prefixes that has an
answer. -/
def Routes.longestMatch (info : ℕ → FibInfo) (flp : Flowi4) (r : Routes) : Option LookupAnswer :=
  (List.range 33).reverse.findSome? fun plen =>
    (r (keep flp.daddr plen) plen).findSome? (checkAlias info flp plen)

theorem LeafInfo.and_maskPlen (li : LeafInfo) (a : TKey) :
    a &&& li.maskPlen = keep a li.plen := by
  rw [li.maskPlen_eq, and_inetMakeMask a li.plen_le]

theorem covers_of_checkLeaf (info : ℕ → FibInfo) (flp : Flowi4) (key : TKey)
    (list : List LeafInfo) (h : checkLeaf info flp key list ≠ none) : Covers flp.daddr key := by
  by_contra hno
  apply h
  rw [checkLeaf, List.findSome?_eq_none_iff]
  intro li _
  rw [li.and_maskPlen, if_pos fun heq => hno ⟨li.plen, heq⟩]

theorem Descending.find_iff {list : List LeafInfo} (h : Descending list) {p : ℕ} {li : LeafInfo} :
    findLeafInfo list p = some li ↔ li ∈ list ∧ li.plen = p := by
  constructor
  · intro hfind
    exact ⟨List.mem_of_find?_eq_some hfind, by simpa using List.find?_some hfind⟩
  · rintro ⟨hmem, rfl⟩
    obtain ⟨l₁, l₂, rfl⟩ := List.append_of_mem hmem
    rw [findLeafInfo, List.find?_eq_some_iff_append]
    refine ⟨by simp, l₁, l₂, rfl, fun x hx => ?_⟩
    have hlt := (List.pairwise_append.mp h).2.2 x hx li List.mem_cons_self
    simpa using Nat.ne_of_gt hlt

theorem keep_le (a : TKey) {m n : ℕ} (h : m ≤ n) : keep a m ≤ keep a n := by
  rw [BitVec.le_def, toNat_eq_field, toNat_eq_field]
  exact field_keep_mono h

/-- The prefixes of an address that are in the trie, in the order in which they answer. -/
def candidates (t : Trie) (key : TKey) : List LeafInfo :=
  t.leaves.reverse.flatMap fun l => l.2.filter fun li => l.1 = keep key li.plen

theorem answer_eq_candidates (t : Trie) : answer (checkLeaf info flp) t.leaves =
    (candidates t flp.daddr).findSome? fun li =>
      li.falh.findSome? (checkAlias info flp li.plen) := by
  rw [answer, candidates]
  induction t.leaves.reverse with
  | nil => rfl
  | cons l rest ih =>
      rw [List.flatMap_cons, List.findSome?_append, ← ih, List.findSome?_cons]
      have hleaf : checkLeaf info flp l.1 l.2 = (l.2.filter fun li =>
          l.1 = keep flp.daddr li.plen).findSome?
            fun li => li.falh.findSome? (checkAlias info flp li.plen) := by
        rw [checkLeaf]
        induction l.2 with
        | nil => rfl
        | cons li list ih' =>
            rw [List.findSome?_cons, li.and_maskPlen, ih', List.filter_cons]
            by_cases hli : l.1 = keep flp.daddr li.plen
            · rw [if_neg (not_not.mpr hli), if_pos (decide_eq_true hli), List.findSome?_cons]
            · rw [if_pos hli, if_neg (by simpa using hli)]
      rw [hleaf]
      cases (l.2.filter fun li => l.1 = keep flp.daddr li.plen).findSome?
        fun li => li.falh.findSome? (checkAlias info flp li.plen) <;> rfl

section Candidates

variable {t : Trie} {key : TKey}

/-- Longer prefixes come first. -/
theorem TableOk.candidates_descending (ht : TableOk t) : Descending (candidates t key) := by
  rw [Descending, candidates, List.pairwise_flatMap]
  constructor
  · intro l hl
    have hmem : (l.1, l.2) ∈ t.leaves := List.mem_reverse.mp hl
    exact (ht.lists l.1 l.2 (ht.kept.distinct.lookup_iff.mpr hmem)).descending.filter _
  · rw [List.pairwise_reverse]
    refine ht.kept.sorted.imp fun {a b} hlt li hli li' hli' => ?_
    have hb := of_decide_eq_true (List.mem_filter.mp hli).2
    have ha := of_decide_eq_true (List.mem_filter.mp hli').2
    by_contra hge
    rw [ha, hb] at hlt
    exact absurd hlt (BitVec.not_lt.mpr (keep_le key (Nat.le_of_not_lt hge)))

/-- There is one for each prefix in the table. -/
theorem TableOk.mem_candidates (ht : TableOk t) {p : ℕ} {li : LeafInfo} :
    findLeafInfo ((t.leaves.lookup (keep key p)).getD []) p = some li ↔
      li ∈ candidates t key ∧ li.plen = p := by
  rw [candidates, List.mem_flatMap]
  constructor
  · intro hfind
    cases hlook : t.leaves.lookup (keep key p) with
    | none =>
        rw [hlook] at hfind
        cases hfind
    | some list =>
        rw [hlook, Option.getD_some, (ht.lists _ _ hlook).descending.find_iff] at hfind
        refine ⟨⟨(keep key p, list), List.mem_reverse.mpr (mem_of_lookup hlook),
          List.mem_filter.mpr ⟨hfind.1, ?_⟩⟩, hfind.2⟩
        rw [hfind.2]
        exact decide_eq_true rfl
  · rintro ⟨⟨l, hl, hli⟩, rfl⟩
    obtain ⟨hmem, hkey⟩ := List.mem_filter.mp hli
    have hl' : (l.1, l.2) ∈ t.leaves := List.mem_reverse.mp hl
    have hlook := ht.kept.distinct.lookup_iff.mpr hl'
    rw [← of_decide_eq_true hkey, hlook, Option.getD_some,
      (ht.lists _ _ hlook).descending.find_iff]
    exact ⟨hmem, rfl⟩

end Candidates

/-- The leaves answer what the table of routes does. -/
theorem TableOk.answer_eq {t : Trie} (ht : TableOk t) :
    answer (checkLeaf info flp) t.leaves = (routes t).longestMatch info flp := by
  rw [answer_eq_candidates, findSome?_of_descending
    (g := fun p => findLeafInfo ((t.leaves.lookup (keep flp.daddr p)).getD []) p)
    ht.candidates_descending (fun li _ => Nat.lt_succ_of_le li.plen_le)
    fun p _ li => ht.mem_candidates, Routes.longestMatch]
  congr 1
  funext p
  rw [routes, aliasesAt]
  cases hfind : findLeafInfo ((t.leaves.lookup (keep flp.daddr p)).getD []) p with
  | none => rfl
  | some li => rw [Option.bind_some, (ht.mem_candidates.mp hfind).2]; rfl

theorem TableOk.lookup {t : Trie} (hok : TableOk t) (info : ℕ → FibInfo) (flp : Flowi4) :
    ∃ fuel, ∀ n, fuel ≤ n → fibTableLookup (checkLeaf info flp) flp.daddr n t =
      some ((routes t).longestMatch info flp) := by
  obtain ⟨fuel, hfuel⟩ := fibTableLookup_spec (covers_of_checkLeaf info flp) hok.kept
  rw [hok.answer_eq] at hfuel
  exact ⟨fuel, hfuel⟩

/-- **The longest match.**  After any calls, `fib_table_lookup` ends, and it finds what the longest
prefix of the address answers that has an answer in the table of routes. -/
theorem fib_table_lookup_longest_match {t : Trie} {r : Routes}
    (h : fibMachine.Reachable (t, r)) (info : ℕ → FibInfo) (flp : Flowi4) :
    ∃ fuel, ∀ n, fuel ≤ n → fibTableLookup (checkLeaf info flp) flp.daddr n t =
      some (r.longestMatch info flp) := by
  obtain ⟨hok, rfl⟩ := fibMachine_routes h
  exact hok.lookup info flp

theorem fib_table_lookup_longest_match_nested : ∃ s, fibMachine.run nestedCalls = some s ∧
    ∃ fuel, ∀ n, fuel ≤ n → fibTableLookup (checkLeaf (fun _ => oneHop) ⟨0x0a010203, 0, 0, 0⟩)
      0x0a010203 n s.1 = some (some (.found ⟨16, 0, .unicast, 0, 2⟩)) := by
  refine ⟨_, rfl, ?_⟩
  obtain ⟨fuel, hfuel⟩ := fib_table_lookup_longest_match
    (fibMachine.reachable_of_run (rfl : fibMachine.run nestedCalls = some (_, _)))
    (fun _ => oneHop) ⟨0x0a010203, 0, 0, 0⟩
  refine ⟨fuel, fun n hle => (hfuel n hle).trans ?_⟩
  decide +kernel

end IpAugenblick.FibTrie
