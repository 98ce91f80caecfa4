/-
# The order of the aliases

`fib_find_alias` relies on the aliases of a prefix being in order: by type of service downwards,
and for each type of service by priority upwards.  `fib_table_insert` keeps them so, and it lets no
alias in twice.  A pointer stands for one `struct fib_info`, whose priority does not change.
-/

import IpAugenblick.Route.Calls

namespace IpAugenblick.FibTrie

open Lib

variable {prio : ℕ → ℕ} {info : ℕ → FibInfo} {cfg : FibConfig} {fi : ℕ}
  {change : AliasChange} {fah : List FibAlias} {x a b c : FibAlias}

/-- One alias may stand in front of another. -/
def Precedes (prio : ℕ → ℕ) (a b : FibAlias) : Prop :=
  b.faTos < a.faTos ∨ a.faTos = b.faTos ∧ prio a.faInfo ≤ prio b.faInfo

theorem Precedes.trans (hab : Precedes prio a b) (hbc : Precedes prio b c) :
    Precedes prio a c := by
  rcases hab with hab | ⟨hab, hab'⟩ <;> rcases hbc with hbc | ⟨hbc, hbc'⟩
  · exact .inl (hbc.trans hab)
  · exact .inl (hbc ▸ hab)
  · exact .inl (hab ▸ hbc)
  · exact .inr ⟨hab.trans hbc, hab'.trans hbc'⟩

/-- Two aliases with the same type of service and priority. -/
def SameRank (prio : ℕ → ℕ) (a b : FibAlias) : Prop :=
  a.faTos = b.faTos ∧ prio a.faInfo = prio b.faInfo

theorem SameRank.precedes (h : SameRank prio a b) : Precedes prio a b := .inr ⟨h.1, h.2.le⟩

theorem Precedes.antisymm (hab : Precedes prio a b) (hba : Precedes prio b a) :
    SameRank prio a b := by
  rcases hab with hab | ⟨hab, hab'⟩ <;> rcases hba with hba | ⟨hba, hba'⟩
  · exact absurd hab (Nat.lt_asymm hba)
  · exact absurd hba.symm (Nat.ne_of_gt hab)
  · exact absurd hab.symm (Nat.ne_of_gt hba)
  · exact ⟨hab, Nat.le_antisymm hab' hba'⟩

/-- The aliases are in order, and each is there once. -/
structure Ordered (prio : ℕ → ℕ) (fah : List FibAlias) : Prop where
  sorted : fah.Pairwise (Precedes prio)
  nodup : fah.Nodup

theorem Ordered.nil : Ordered prio [] := ⟨.nil, .nil⟩

/-- What `fib_find_alias` finds: all aliases in front precede, and all others follow. -/
theorem fibFindAlias_spec (hprio : ∀ fi, (info fi).fibPriority = prio fi)
    (h : fah.Pairwise (Precedes prio)) (x : FibAlias) :
    (∀ a ∈ fah.take (fibFindAlias info fah x.faTos (prio x.faInfo)),
        Precedes prio a x ∧ ¬ SameRank prio a x) ∧
      ∀ b ∈ fah.drop (fibFindAlias info fah x.faTos (prio x.faInfo)), Precedes prio x b := by
  induction fah with
  | nil => exact ⟨List.forall_mem_nil _, List.forall_mem_nil _⟩
  | cons first rest ih =>
      obtain ⟨hfirst, hrest⟩ := List.pairwise_cons.mp h
      rw [fibFindAlias, List.findIdx_cons]
      simp only [hprio]
      cases hp : (decide (first.faTos ≤ x.faTos) &&
          (decide (prio x.faInfo ≤ prio first.faInfo) || decide (first.faTos < x.faTos))) with
      | true =>
          have hx : Precedes prio x first := by
            simp only [Bool.and_eq_true, Bool.or_eq_true, decide_eq_true_eq] at hp
            rcases Nat.lt_or_eq_of_le hp.1 with hlt | heq
            · exact .inl hlt
            · exact .inr ⟨heq.symm, hp.2.resolve_right (by omega)⟩
          refine ⟨List.forall_mem_nil _, fun b hb => ?_⟩
          rcases List.mem_cons.mp hb with rfl | hb
          · exact hx
          · exact hx.trans (hfirst b hb)
      | false =>
          have hx : Precedes prio first x ∧ ¬ SameRank prio first x := by
            simp only [Bool.and_eq_false_iff, Bool.or_eq_false_iff, decide_eq_false_iff_not] at hp
            rcases hp with hp | ⟨hp, hp'⟩
            · exact ⟨.inl (Nat.lt_of_not_le hp), fun hsame => hp hsame.1.le⟩
            · refine ⟨?_, fun hsame => hp hsame.2.ge⟩
              rcases Nat.lt_or_eq_of_le (Nat.le_of_not_lt hp') with hlt | heq
              · exact .inl hlt
              · exact .inr ⟨heq.symm, Nat.le_of_lt (Nat.lt_of_not_le hp)⟩
          obtain ⟨hbefore, hafter⟩ := ih hrest
          rw [fibFindAlias] at hbefore hafter
          simp only [hprio] at hbefore hafter
          refine ⟨fun a ha => ?_, hafter⟩
          rcases List.mem_cons.mp ha with rfl | ha
          · exact hx
          · exact hbefore a ha

theorem insertIdx_eq {α : Type*} {l : List α} {x : α} {i : ℕ} (h : i ≤ l.length) :
    l.insertIdx i x = l.take i ++ x :: l.drop i := by
  induction l generalizing i with
  | nil =>
      obtain rfl : i = 0 := Nat.le_zero.mp h
      rfl
  | cons first rest ih =>
      cases i with
      | zero => rfl
      | succ i =>
          rw [List.insertIdx_succ_cons, ih (Nat.le_of_succ_le_succ h)]
          rfl

/-- An alias is put in where it belongs. -/
theorem Ordered.insertIdx (h : Ordered prio fah) {i : ℕ} (hi : i ≤ fah.length)
    (hbefore : ∀ a ∈ fah.take i, Precedes prio a x) (hafter : ∀ b ∈ fah.drop i, Precedes prio x b)
    (hnew : x ∉ fah) : Ordered prio (fah.insertIdx i x) := by
  obtain ⟨hl, hr, hlr⟩ := List.pairwise_append.mp (List.take_append_drop i fah ▸ h.sorted)
  rw [insertIdx_eq hi]
  refine ⟨List.pairwise_append.mpr ⟨hl, List.pairwise_cons.mpr ⟨hafter, hr⟩, fun a ha b hb => ?_⟩,
    ?_⟩
  · rcases List.mem_cons.mp hb with rfl | hb
    · exact hbefore a ha
    · exact hlr a ha b hb
  · rw [List.nodup_middle, List.take_append_drop, List.nodup_cons]
    exact ⟨hnew, h.nodup⟩

/-- An alias is replaced by one of the same rank. -/
theorem Ordered.modify (h : Ordered prio fah) {i : ℕ} {f : FibAlias → FibAlias}
    (hi : fah[i]? = some a) (hsame : SameRank prio a (f a)) (hnew : f a ∉ fah) :
    Ordered prio (fah.modify i f) := by
  obtain ⟨hlt, hget⟩ := List.getElem?_eq_some_iff.mp hi
  have hsplit : fah = fah.take i ++ a :: fah.drop (i + 1) := by
    rw [← hget, List.getElem_cons_drop, List.take_append_drop]
  have hsorted := h.sorted
  have hnodup := h.nodup
  rw [List.modify_eq_take_cons_drop hlt, hget]
  rw [hsplit] at hsorted hnodup hnew
  obtain ⟨hl, hr, hlr⟩ := List.pairwise_append.mp hsorted
  obtain ⟨har, hr⟩ := List.pairwise_cons.mp hr
  have hback : Precedes prio (f a) a := SameRank.precedes ⟨hsame.1.symm, hsame.2.symm⟩
  refine ⟨List.pairwise_append.mpr ⟨hl, List.pairwise_cons.mpr
    ⟨fun b hb => hback.trans (har b hb), hr⟩, fun c hc b hb => ?_⟩, ?_⟩
  · rcases List.mem_cons.mp hb with rfl | hb
    · exact (hlr c hc a List.mem_cons_self).trans hsame.precedes
    · exact hlr c hc b (List.mem_cons_of_mem a hb)
  · rw [List.nodup_middle, List.nodup_cons] at hnodup ⊢
    refine ⟨fun hmem => hnew ?_, hnodup.2⟩
    rw [List.mem_append, List.mem_cons]
    rcases List.mem_append.mp hmem with hmem | hmem
    · exact .inl hmem
    · exact .inr (.inr hmem)

theorem Ordered.eraseIdx (h : Ordered prio fah) (i : ℕ) : Ordered prio (fah.eraseIdx i) :=
  ⟨h.sorted.sublist (List.eraseIdx_sublist fah i), h.nodup.sublist (List.eraseIdx_sublist fah i)⟩

theorem Ordered.filter (h : Ordered prio fah) (p : FibAlias → Bool) :
    Ordered prio (fah.filter p) :=
  ⟨h.sorted.sublist List.filter_sublist, h.nodup.sublist List.filter_sublist⟩

/-- A scan stops within the list, and goes on for what it has passed. -/
theorem scanAliases_spec (go hit : FibAlias → Bool) (l : List FibAlias) (i : ℕ) :
    ∃ k ≤ l.length, (scanAliases go hit l i).1 = i + k ∧ ∀ a ∈ l.take k, go a = true := by
  induction l generalizing i with
  | nil => exact ⟨0, le_rfl, rfl, List.forall_mem_nil _⟩
  | cons first rest ih =>
      rw [scanAliases]
      cases hgo : go first with
      | false => exact ⟨0, Nat.zero_le _, rfl, List.forall_mem_nil _⟩
      | true =>
          cases hhit : hit first with
          | true => exact ⟨0, Nat.zero_le _, rfl, List.forall_mem_nil _⟩
          | false =>
              obtain ⟨k, hk, hstop, hpassed⟩ := ih (i + 1)
              refine ⟨k + 1, Nat.succ_le_succ hk, ?_, fun a ha => ?_⟩
              · simp only [Bool.not_true, Bool.false_eq_true, if_false]
                rw [hstop]
                omega
              · rcases List.mem_cons.mp ha with rfl | ha
                · exact hgo
                · exact hpassed a ha

/-- A scan of what follows an alias, as long as it has the same rank, misses no such alias. -/
theorem scanAliases_found (go hit : FibAlias → Bool) {l : List FibAlias}
    (hgo : ∀ b, SameRank prio x b → go b = true) (hhit : hit x = true)
    (hsorted : l.Pairwise (Precedes prio)) (hafter : ∀ b ∈ l, Precedes prio x b) (hx : x ∈ l)
    (i : ℕ) : (scanAliases go hit l i).2 = true := by
  induction l generalizing i with
  | nil => cases hx
  | cons first rest ih =>
      obtain ⟨hfirst, hrest⟩ := List.pairwise_cons.mp hsorted
      have hpast := hafter first List.mem_cons_self
      rw [scanAliases]
      rcases List.mem_cons.mp hx with rfl | hx
      · rw [hgo x ⟨rfl, rfl⟩, hhit]
        rfl
      · rw [hgo first (hpast.antisymm (hfirst x hx))]
        cases hit first with
        | true => rfl
        | false => exact ih hrest (fun b hb => hafter b (List.mem_cons_of_mem _ hb)) hx (i + 1)

/-- An alias is put in behind those of its rank that a scan has passed. -/
theorem Ordered.putIn (h : Ordered prio fah) (hprio : ∀ fi, (info fi).fibPriority = prio fi)
    {k : ℕ}
    (hk : k ≤ (fah.drop (fibFindAlias info fah x.faTos (prio x.faInfo))).length)
    (hpassed : ∀ a ∈ (fah.drop (fibFindAlias info fah x.faTos (prio x.faInfo))).take k,
      SameRank prio a x) (hnew : x ∉ fah) :
    Ordered prio (fah.insertIdx (fibFindAlias info fah x.faTos (prio x.faInfo) + k) x) := by
  obtain ⟨hbefore, hafter⟩ := fibFindAlias_spec hprio h.sorted x
  have hle : fibFindAlias info fah x.faTos (prio x.faInfo) ≤ fah.length := List.findIdx_le_length
  rw [List.length_drop] at hk
  refine h.insertIdx (by omega) (fun a ha => ?_) (fun b hb => ?_) hnew
  · rw [List.take_add, List.mem_append] at ha
    rcases ha with ha | ha
    · exact (hbefore a ha).1
    · exact (hpassed a ha).precedes
  · rw [← List.drop_drop] at hb
    exact hafter b (List.mem_of_mem_drop hb)

/-- An alias that is there is behind the first of its rank, where `fib_find_alias` has come to. -/
theorem Ordered.first_of_mem (h : Ordered prio fah)
    (hprio : ∀ fi, (info fi).fibPriority = prio fi) (hmem : x ∈ fah) :
    x ∈ fah.drop (fibFindAlias info fah x.faTos (prio x.faInfo)) ∧
      ∃ first, fah[fibFindAlias info fah x.faTos (prio x.faInfo)]? = some first ∧
        SameRank prio first x := by
  obtain ⟨hbefore, hafter⟩ := fibFindAlias_spec hprio h.sorted x
  generalize fibFindAlias info fah x.faTos (prio x.faInfo) = faFirst at hbefore hafter
  have hdrop : (fah.drop faFirst).Pairwise (Precedes prio) :=
    h.sorted.sublist (List.drop_sublist _ _)
  have hbehind : x ∈ fah.drop faFirst := by
    rw [← List.take_append_drop faFirst fah, List.mem_append] at hmem
    exact hmem.resolve_left fun hmem => (hbefore _ hmem).2 ⟨rfl, rfl⟩
  have hlt : faFirst < fah.length := by
    by_contra hge
    rw [List.drop_eq_nil_of_le (Nat.le_of_not_lt hge)] at hbehind
    cases hbehind
  refine ⟨hbehind, fah[faFirst], List.getElem?_eq_getElem hlt, ?_⟩
  rw [List.drop_eq_getElem_cons hlt] at hdrop hbehind hafter
  rcases List.mem_cons.mp hbehind with heq | hin
  · rw [← heq]
    exact ⟨rfl, rfl⟩
  · exact ((List.pairwise_cons.mp hdrop).1 _ hin).antisymm (hafter _ List.mem_cons_self)

theorem any_sameRank_iff {o : Option FibAlias} :
    o.any (fun fa => decide (fa.faTos = x.faTos) && decide (prio fa.faInfo = prio x.faInfo)) =
      true ↔ ∃ first, o = some first ∧ SameRank prio first x := by
  cases o with
  | none => simp
  | some first =>
      rw [Option.any_some, Bool.and_eq_true, decide_eq_true_eq, decide_eq_true_eq]
      constructor
      · intro hrank
        exact ⟨first, rfl, hrank⟩
      · rintro ⟨_, hfirst, hrank⟩
        obtain rfl := Option.some.inj hfirst
        exact hrank

/-- The scan of `fib_table_insert` passes aliases of the new one's rank, and if it has no hit, the
new one is not there. -/
theorem Ordered.scan (h : Ordered prio fah) (hprio : ∀ fi, (info fi).fibPriority = prio fi)
    (x : FibAlias) :
    ∃ k ≤ (fah.drop (fibFindAlias info fah x.faTos (prio x.faInfo))).length, ∃ faMatch,
      scanAliases (fun fa => decide (fa.faTos = x.faTos) && decide (prio fa.faInfo = prio x.faInfo))
        (fun fa => decide (fa.faType = x.faType) && decide (fa.faInfo = x.faInfo))
        (fah.drop (fibFindAlias info fah x.faTos (prio x.faInfo)))
        (fibFindAlias info fah x.faTos (prio x.faInfo)) =
          (fibFindAlias info fah x.faTos (prio x.faInfo) + k, faMatch) ∧
      (∀ a ∈ (fah.drop (fibFindAlias info fah x.faTos (prio x.faInfo))).take k,
        SameRank prio a x) ∧
      (faMatch = false → x ∉ fah) := by
  have hfirst := h.first_of_mem hprio (x := x)
  have hafter := (fibFindAlias_spec hprio h.sorted x).2
  generalize fibFindAlias info fah x.faTos (prio x.faInfo) = faFirst at hfirst hafter ⊢
  obtain ⟨k, hk, hstop, hpassed⟩ := scanAliases_spec
    (fun fa => decide (fa.faTos = x.faTos) && decide (prio fa.faInfo = prio x.faInfo))
    (fun fa => decide (fa.faType = x.faType) && decide (fa.faInfo = x.faInfo))
    (fah.drop faFirst) faFirst
  refine ⟨k, hk, _, Prod.ext hstop rfl, fun a ha => ?_, fun hmiss hmem => ?_⟩
  · have hgo := hpassed a ha
    rw [Bool.and_eq_true, decide_eq_true_eq, decide_eq_true_eq] at hgo
    exact hgo
  · have hfound := scanAliases_found
      (fun fa => decide (fa.faTos = x.faTos) && decide (prio fa.faInfo = prio x.faInfo))
      (fun fa => decide (fa.faType = x.faType) && decide (fa.faInfo = x.faInfo))
      (fun b hb => by simp [← hb.1, ← hb.2]) (by simp)
      (h.sorted.sublist (List.drop_sublist faFirst fah)) hafter (hfirst hmem).1 faFirst
    cases hmiss.symm.trans hfound

/-- Where `fib_table_insert` does not fail, it keeps the alias that is there, it replaces the first
one of the new one's rank, or it puts the new one in behind some of that rank. -/
theorem aliasChange_cases (h : Ordered prio fah) (hprio : ∀ fi, (info fi).fibPriority = prio fi)
    (hx : x = ⟨cfg.fcTos, cfg.fcType, fi⟩) (hchange : aliasChange info cfg fi fah = .ok change) :
    change = .keep ∨
    (∃ first, change = .replace (fibFindAlias info fah x.faTos (prio x.faInfo)) ∧
      fah[fibFindAlias info fah x.faTos (prio x.faInfo)]? = some first ∧
      SameRank prio first x ∧ x ∉ fah) ∨
    ∃ k ≤ (fah.drop (fibFindAlias info fah x.faTos (prio x.faInfo))).length,
      change = .insert (fibFindAlias info fah x.faTos (prio x.faInfo) + k) ∧
      (∀ a ∈ (fah.drop (fibFindAlias info fah x.faTos (prio x.faInfo))).take k,
        SameRank prio a x) ∧ x ∉ fah := by
  obtain ⟨k, hk, faMatch, hscan, hpassed, hnew⟩ := h.scan hprio x
  have hfirst := h.first_of_mem hprio (x := x)
  subst hx
  simp only [aliasChange, hprio] at hchange
  dsimp only at hscan hk hpassed hfirst ⊢
  generalize fibFindAlias info fah cfg.fcTos (prio fi) = faFirst at *
  rw [hscan] at hchange
  split at hchange
  next hany =>
    obtain ⟨first, hget, hrank⟩ :=
      (any_sameRank_iff (x := ⟨cfg.fcTos, cfg.fcType, fi⟩)).mp hany
    split at hchange
    next => cases hchange
    next =>
      dsimp only at hchange
      cases faMatch with
      | true =>
          simp only [if_true] at hchange
          split at hchange
          next =>
            split at hchange
            next =>
              cases hchange
              exact .inl rfl
            next => cases hchange
          next => cases hchange
      | false =>
          simp only [Bool.false_eq_true, if_false] at hchange
          split at hchange
          next =>
            cases hchange
            exact .inr (.inl ⟨first, rfl, hget, hrank, hnew rfl⟩)
          next =>
            split at hchange <;> split at hchange
            · cases hchange
            · cases hchange
              exact .inr (.inr ⟨0, Nat.zero_le _, rfl, List.forall_mem_nil _, hnew rfl⟩)
            · cases hchange
            · cases hchange
              exact .inr (.inr ⟨k, hk, rfl, hpassed, hnew rfl⟩)
  next hnone =>
    split at hchange
    next => cases hchange
    next =>
      cases hchange
      refine .inr (.inr ⟨0, Nat.zero_le _, rfl, List.forall_mem_nil _, fun hmem => hnone ?_⟩)
      exact (any_sameRank_iff (x := ⟨cfg.fcTos, cfg.fcType, fi⟩)).mpr (hfirst hmem).2

/-- What `fib_table_insert` does keeps the order. -/
theorem Ordered.apply (h : Ordered prio fah) (hprio : ∀ fi, (info fi).fibPriority = prio fi)
    (hchange : aliasChange info cfg fi fah = .ok change) :
    Ordered prio (change.apply cfg fi fah) := by
  rcases aliasChange_cases h hprio rfl hchange with
    rfl | ⟨first, rfl, hget, hrank, hnew⟩ | ⟨k, hk, rfl, hpassed, hnew⟩
  · exact h
  · have hcopy : (⟨first.faTos, cfg.fcType, fi⟩ : FibAlias) = ⟨cfg.fcTos, cfg.fcType, fi⟩ := by
      rw [show first.faTos = cfg.fcTos from hrank.1]
    exact h.modify (f := fun fa => ⟨fa.faTos, cfg.fcType, fi⟩) hget ⟨rfl, hrank.2⟩ (hcopy ▸ hnew)
  · exact h.putIn hprio hk hpassed hnew

def Call.fibInfo : Call → ℕ → FibInfo
  | .insert _ info _ _ => info
  | .delete _ info _ => info

/-- The calls by which no `struct fib_info` has changed its priority. -/
def keepsPriorities (prio : ℕ → ℕ) (_ : Trie × Routes) : FibEvent → Prop
  | .call c => ∀ fi, (c.fibInfo fi).fibPriority = prio fi
  | .flush _ _ _ => True

theorem Routes.ordered_write {r : Routes} (hr : ∀ k p, Ordered prio (r k p)) {key : TKey}
    {plen : ℕ} (h : Ordered prio fah) (k : TKey) (p : ℕ) :
    Ordered prio (r.write key plen fah k p) := by
  rw [Routes.write]
  split
  next => exact h
  next => exact hr k p

theorem Call.spec_ordered {c : Call} {r : Routes}
    (hprio : ∀ fi, (c.fibInfo fi).fibPriority = prio fi) (hr : ∀ k p, Ordered prio (r k p))
    (k : TKey) (p : ℕ) : Ordered prio ((c.spec r).2 k p) := by
  cases c with
  | insert mem info cfg fi =>
      rw [Call.spec, Routes.insert.eq_def]
      split
      next => exact hr k p
      next =>
        cases fi with
        | error err => exact hr k p
        | ok fi =>
            dsimp only
            cases hchange : aliasChange info cfg fi (r cfg.fcDst cfg.fcDstLen) with
            | error err => exact hr k p
            | ok change =>
                exact Routes.ordered_write hr ((hr cfg.fcDst cfg.fcDstLen).apply hprio hchange) k p
  | delete mem info cfg =>
      rw [Call.spec, Routes.delete]
      split
      next => exact hr k p
      next =>
        cases aliasToDelete info cfg (r cfg.fcDst cfg.fcDstLen) with
        | none => exact hr k p
        | some i => exact Routes.ordered_write hr ((hr cfg.fcDst cfg.fcDstLen).eraseIdx i) k p

/-- The aliases of every prefix of the table are in order. -/
def OrderedInv (prio : ℕ → ℕ) (s : Trie × Routes) : Prop := ∀ k p, Ordered prio (s.2 k p)

/-- **The order of the aliases**, in every run in which no priority changes: for every prefix they
stand in the trie by type of service and priority, and none of them twice. -/
theorem fib_table_aliases_ordered {t : Trie} {r : Routes}
    (h : fibMachine.ReachableWhere (keepsPriorities prio) (t, r)) (key : TKey) (plen : ℕ) :
    (routes t key plen).Pairwise (Precedes prio) ∧ (routes t key plen).Nodup := by
  have hordered : OrderedInv prio (t, r) := by
    refine fibMachine.invariant_of_step (fun _ _ => Ordered.nil) ?_ h
    intro s e s' hs hprio hstep k p
    cases e with
    | call c =>
        cases Option.some.inj hstep
        dsimp only
        split
        next => exact hs k p
        next => exact Call.spec_ordered hprio hs k p
    | flush fuel mem info =>
        obtain ⟨out, -, rfl⟩ := Option.map_eq_some_iff.mp hstep
        exact (hs k p).filter _
  rw [(fibMachine_routes (h.mono fun _ _ _ => trivial)).2]
  exact ⟨(hordered key plen).sorted, (hordered key plen).nodup⟩

def sharedPriority (fi : ℕ) : ℕ := if fi = 1 then 10 else if fi = 3 then 30 else 20

/-- A route to 10.1.0.0/16 is put in, beside others to the same prefix. -/
def sharedCall (tos nlflags fi : ℕ) : FibEvent :=
  .call (.insert (fun _ => true) (fun fi => { oneHop with fibPriority := sharedPriority fi })
    ⟨16, 0x0a010000, tos, .unicast, 0, 0, 2, nlflags, fun _ => true⟩ (.ok fi))

/-- Four routes to one prefix, the last of them appended to one of its type of service and
priority. -/
def sharedCalls : List FibEvent :=
  [sharedCall 0 nlmFCreate 2, sharedCall 8 nlmFCreate 3, sharedCall 0 nlmFCreate 1,
    sharedCall 0 (nlmFCreate ||| nlmFAppend) 4]

theorem fib_table_aliases_ordered_shared : ∃ s, fibMachine.run sharedCalls = some s ∧
    routes s.1 0x0a010000 16 =
      [⟨8, .unicast, 3⟩, ⟨0, .unicast, 1⟩, ⟨0, .unicast, 2⟩, ⟨0, .unicast, 4⟩] ∧
    (routes s.1 0x0a010000 16).Pairwise (Precedes sharedPriority) ∧
      (routes s.1 0x0a010000 16).Nodup := by
  have hfirst : fibMachine.ReachableWhere (keepsPriorities sharedPriority) _ :=
    .step (a := sharedCall 0 nlmFCreate 2) .init (fun _ => rfl) rfl
  have hsecond := hfirst.step (a := sharedCall 8 nlmFCreate 3) (fun _ => rfl) rfl
  have hthird := hsecond.step (a := sharedCall 0 nlmFCreate 1) (fun _ => rfl) rfl
  have hfourth := hthird.step (a := sharedCall 0 (nlmFCreate ||| nlmFAppend) 4) (fun _ => rfl) rfl
  refine ⟨_, rfl, ?_, fib_table_aliases_ordered hfourth _ _⟩
  decide +kernel

end IpAugenblick.FibTrie
