/-
# Runs of the routing table

Routes are inserted and deleted, and the dead ones are flushed, in any order and with any failures
of the allocator.  Beside the trie runs the table of routes: `Routes` is all that a caller needs to
know of it.
-/

import IpAugenblick.Lib.Machine
import IpAugenblick.Route.Flush

namespace IpAugenblick.FibTrie

open Lib Lib.BitKey Lib.Keyed

/-- A call that changes the table, with the memory that it has. -/
inductive Call
  | insert (mem : Memory) (info : ℕ → FibInfo) (cfg : FibConfig) (fi : Except ℤ ℕ)
  | delete (mem : Memory) (info : ℕ → FibInfo) (cfg : FibConfig)

def Call.run (t : Trie) : Call → ℤ × Trie
  | .insert mem info cfg fi => fibTableInsert mem info cfg fi t
  | .delete mem info cfg => fibTableDelete mem info cfg t

/-- What a call does to a table of routes. -/
def Call.spec (r : Routes) : Call → ℤ × Routes
  | .insert _ info cfg fi => Routes.insert info cfg fi r
  | .delete _ info cfg => Routes.delete info cfg r

/-- **One call.** -/
theorem Call.follows {t : Trie} (c : Call) (ht : TableOk t) :
    Follows t (c.run t) (c.spec (routes t)) := by
  cases c with
  | insert mem info cfg fi => exact fibTableInsert_spec ht mem info cfg fi
  | delete mem info cfg => exact fibTableDelete_spec ht mem info cfg

/-- A call that fails leaves the table of routes as it is. -/
theorem Call.spec_of_failed (c : Call) (r : Routes) (h : (c.spec r).1 ≠ 0) : (c.spec r).2 = r := by
  cases c with
  | insert mem info cfg fi =>
      rw [Call.spec, Routes.insert.eq_def] at h ⊢
      split
      next => rfl
      next hdst =>
        rw [if_neg hdst] at h
        cases fi with
        | error err => rfl
        | ok fi =>
            dsimp only at h ⊢
            cases hchange : aliasChange info cfg fi (r cfg.fcDst cfg.fcDstLen) with
            | error err => rfl
            | ok change =>
                rw [hchange] at h
                exact absurd rfl h
  | delete mem info cfg =>
      rw [Call.spec, Routes.delete] at h ⊢
      split
      next => rfl
      next hdst =>
        rw [if_neg hdst] at h
        cases hdelete : aliasToDelete info cfg (r cfg.fcDst cfg.fcDstLen) with
        | none => rfl
        | some i =>
            rw [hdelete] at h
            exact absurd rfl h

/-- What happens to the table: a call, or a flush that goes as far as its fuel does. -/
inductive FibEvent
  | call (c : Call)
  | flush (fuel : ℕ) (mem : Memory) (info : ℕ → FibInfo)

/-- The trie, and beside it the table of routes as it is after the same events, but for calls that
have run out of memory. -/
def fibMachine : Machine (Trie × Routes) FibEvent where
  init := (.null, fun _ _ => [])
  step s
    | .call c => some ((c.run s.1).2,
        if outOfMemory (c.run s.1).1 then s.2 else (c.spec s.2).2)
    | .flush fuel mem info => (fibTableFlush fuel mem info s.1).map fun out =>
        (out.2, s.2.flush info)

theorem tableOk_null : TableOk .null := ⟨trivial, fun _ _ h => by cases h⟩

/-- The trie is in order, and its routes are those of the table.  The second is what a user of the
trie relies on; the first is there to make it last. -/
def FibInv (s : Trie × Routes) : Prop := TableOk s.1 ∧ routes s.1 = s.2

/-- **The trie is the table of routes**, after any calls. -/
theorem fibMachine_inv {s : Trie × Routes} (h : fibMachine.Reachable s) : FibInv s := by
  refine fibMachine.invariant_of_step ⟨tableOk_null, rfl⟩ ?_ h
  rintro s e s' ⟨hok, hroutes⟩ - hstep
  cases e with
  | call c =>
      obtain ⟨hok', hfollows⟩ := c.follows hok
      cases Option.some.inj hstep
      refine ⟨hok', ?_⟩
      rw [hroutes] at hfollows
      rcases hfollows with heq | ⟨hout, hsame⟩
      · split
        next hout =>
          have hfailed : (c.spec s.2).1 ≠ 0 := by
            rw [← heq]
            intro hzero
            rw [show (c.run s.1).1 = 0 from hzero] at hout
            cases hout
          rw [← c.spec_of_failed s.2 hfailed, ← heq]
        next => rw [← heq]
      · rw [if_pos hout, hsame]
        exact hroutes
  | flush fuel mem info =>
      obtain ⟨out, hrun, rfl⟩ := Option.map_eq_some_iff.mp hstep
      obtain ⟨fuel', t', hok', hroutes', hends⟩ := fibTableFlush_spec hok mem info
      have hout := hends (max fuel fuel') (Nat.le_max_right _ _)
      rw [fibTableFlush_mono (Nat.le_max_left fuel fuel') hrun] at hout
      cases hout
      exact ⟨hok', by rw [hroutes', hroutes]⟩

theorem fibMachine_routes {t : Trie} {r : Routes} (h : fibMachine.Reachable (t, r)) :
    TableOk t ∧ routes t = r := fibMachine_inv h

/-- **Any events.**  In front of the next call the trie has the leaves, nodes and counters that it
should have, its routes are those of the table, and the call returns what the table says, unless
it runs out of memory and changes nothing. -/
theorem fib_table_refines_routes {t : Trie} {r : Routes} (h : fibMachine.Reachable (t, r)) :
    TableOk t ∧ routes t = r ∧ ∀ c : Call, (c.run t).1 = (c.spec r).1 ∨
      outOfMemory (c.run t).1 = true ∧ (c.run t).2 = t := by
  obtain ⟨hok, hroutes⟩ := fibMachine_routes h
  refine ⟨hok, hroutes, fun c => ?_⟩
  rcases (c.follows hok).2 with heq | hout
  · rw [hroutes] at heq
    exact .inl (congrArg Prod.fst heq)
  · exact .inr hout

/-- A `struct fib_info` with one next hop. -/
def oneHop : FibInfo := ⟨false, 0, 2, 0, 0, 0, [⟨0, 1⟩]⟩

def routeCall (type : RouteType) (dst : TKey) (plen fi : ℕ) : FibEvent :=
  .call (.insert (fun _ => true) (fun _ => oneHop)
    ⟨plen, dst, 0, type, 0, 0, 2, nlmFCreate, fun _ => true⟩ (.ok fi))

/-- Routes to 10.0.0.0/8 and to 10.1.0.0/16 are put in. -/
def nestedCalls : List FibEvent :=
  [routeCall .unicast 0x0a000000 8 1, routeCall .unicast 0x0a010000 16 2]

theorem fib_table_refines_routes_nested : ∃ s, fibMachine.run nestedCalls = some s ∧
    TableOk s.1 ∧ routes s.1 0x0a010000 16 = [⟨0, .unicast, 2⟩] := by
  refine ⟨_, rfl, ?_⟩
  obtain ⟨hok, hroutes, -⟩ := fib_table_refines_routes
    (fibMachine.reachable_of_run (rfl : fibMachine.run nestedCalls = some (_, _)))
  refine ⟨hok, ?_⟩
  rw [hroutes]
  decide +kernel

/-- **The dead routes go.**  A flush after any events ends, with a trie in order that has exactly
the routes that are not dead, and returns how many are gone. -/
theorem fib_table_flush_takes_dead {t : Trie} {r : Routes} (h : fibMachine.Reachable (t, r))
    (mem : Memory) (info : ℕ → FibInfo) : ∃ fuel t', TableOk t' ∧ routes t' = r.flush info ∧
      ∀ n, fuel ≤ n → fibTableFlush n mem info t = some
        ((t.leaves.flatMap fun l => l.2.flatMap (·.falh)).countP (isDead info), t') := by
  obtain ⟨hok, hroutes⟩ := fibMachine_routes h
  rw [← hroutes]
  exact fibTableFlush_spec hok mem info

def secondDead (fi : ℕ) : FibInfo :=
  if fi = 2 then { oneHop with fibFlags := rtnhFDead } else oneHop

theorem fib_table_flush_takes_dead_nested : ∃ s, fibMachine.run nestedCalls = some s ∧
    ∃ fuel t', routes t' 0x0a000000 8 = [⟨0, .unicast, 1⟩] ∧ routes t' 0x0a010000 16 = [] ∧
      ∀ n, fuel ≤ n → fibTableFlush n (fun _ => true) secondDead s.1 = some (1, t') := by
  refine ⟨_, rfl, ?_⟩
  obtain ⟨fuel, t', -, hroutes, hrun⟩ := fib_table_flush_takes_dead
    (fibMachine.reachable_of_run (rfl : fibMachine.run nestedCalls = some (_, _)))
    (fun _ => true) secondDead
  refine ⟨fuel, t', ?_, ?_, fun n hle => (hrun n hle).trans ?_⟩
  · rw [hroutes]
    decide +kernel
  · rw [hroutes]
    decide +kernel
  · refine congrArg (fun found => some (found, t')) ?_
    decide +kernel

end IpAugenblick.FibTrie
