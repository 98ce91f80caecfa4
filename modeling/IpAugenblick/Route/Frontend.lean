/-
# Asking the tables

The stack has two tables of routes, the local one, with its own addresses, and the main one.  Here
is what it asks them: where a packet goes, and whose an address is.  Each of the two tables has its
own run.
-/

import IpAugenblick.Route.LongestMatch

namespace IpAugenblick.FibTrie

open Lib Lib.BitKey Lib.Keyed

/-- The tables of `struct net`, as there are without policy rules. -/
structure FibTables where
  localTable : Trie
  mainTable : Trie

variable {tables : FibTables} {localRoutes mainRoutes : Routes}

def eNETUNREACH : ℤ := 101

def iNADDR_BROADCAST : TKey := 0xffffffff

def ipv4IsMulticast (addr : TKey) : Bool := addr &&& 0xf0000000 = 0xe0000000

def ipv4IsLbcast (addr : TKey) : Bool := addr = iNADDR_BROADCAST

def ipv4IsZeronet (addr : TKey) : Bool := addr &&& 0xff000000 = 0

/-- The result that goes with a return value of 0. -/
def foundRes : Option LookupAnswer → Option FibResult
  | some (.found res) => some res
  | _ => none

/-- `fib_lookup`, as it is without policy rules. -/
def fibLookup (info : ℕ → FibInfo) (flp : Flowi4) (fuel : ℕ) (tables : FibTables) :
    Option (Except ℤ FibResult) :=
  (fibTableLookup (checkLeaf info flp) flp.daddr fuel tables.localTable).bind fun answer =>
    match foundRes answer with
    | some res => some (.ok res)
    | none =>
        (fibTableLookup (checkLeaf info flp) flp.daddr fuel tables.mainTable).map fun answer =>
          match foundRes answer with
          | some res => .ok res
          | none => .error (-eNETUNREACH)

def inetAddrType (info : ℕ → FibInfo) (fuel : ℕ) (tables : FibTables) (addr : TKey) :
    Option RouteType :=
  if ipv4IsZeronet addr || ipv4IsLbcast addr then some .broadcast
  else if ipv4IsMulticast addr then some .multicast
  else (fibTableLookup (checkLeaf info ⟨addr, 0, 0, 0⟩) addr fuel tables.localTable).map
    fun answer =>
      match foundRes answer with
      | some res => res.type
      | none => .unicast

/-- Where two tables of routes send a packet: the local one is asked first. -/
def Routes.lookup (info : ℕ → FibInfo) (flp : Flowi4) (localRoutes mainRoutes : Routes) :
    Except ℤ FibResult :=
  match (foundRes (localRoutes.longestMatch info flp)).or
      (foundRes (mainRoutes.longestMatch info flp)) with
  | some res => .ok res
  | none => .error (-eNETUNREACH)

/-- What a table of routes says of an address. -/
def Routes.addrType (info : ℕ → FibInfo) (localRoutes : Routes) (addr : TKey) : RouteType :=
  if ipv4IsZeronet addr || ipv4IsLbcast addr then .broadcast
  else if ipv4IsMulticast addr then .multicast
  else match foundRes (localRoutes.longestMatch info ⟨addr, 0, 0, 0⟩) with
    | some res => res.type
    | none => .unicast

/-- **Where a packet goes.**  After any events in the two tables, `fib_lookup` ends, with the
longest match of the local table, else with that of the main one, and else with `-ENETUNREACH`.  An
error that the local table has for the address leads to the main one. -/
theorem fib_lookup_local_first (tables : FibTables)
    (hlocal : fibMachine.Reachable (tables.localTable, localRoutes))
    (hmain : fibMachine.Reachable (tables.mainTable, mainRoutes))
    (info : ℕ → FibInfo) (flp : Flowi4) :
    ∃ fuel, ∀ n, fuel ≤ n → fibLookup info flp n tables =
      some (localRoutes.lookup info flp mainRoutes) := by
  obtain ⟨hokLocal, rfl⟩ := fibMachine_routes hlocal
  obtain ⟨hokMain, rfl⟩ := fibMachine_routes hmain
  obtain ⟨fuelLocal, hfuelLocal⟩ := hokLocal.lookup info flp
  obtain ⟨fuelMain, hfuelMain⟩ := hokMain.lookup info flp
  refine ⟨max fuelLocal fuelMain, fun n hle => ?_⟩
  obtain ⟨hleLocal, hleMain⟩ := max_le_iff.mp hle
  rw [fibLookup, hfuelLocal n hleLocal, hfuelMain n hleMain, Option.bind_some, Option.map_some,
    Routes.lookup]
  cases foundRes ((routes tables.localTable).longestMatch info flp) with
  | some res => rfl
  | none =>
      cases foundRes ((routes tables.mainTable).longestMatch info flp) with
      | some res => rfl
      | none => rfl

/-- 10.1.0.0/16 is out of reach: that is a local error, which the main table need not share. -/
def unreachableCalls : List FibEvent := [routeCall .unreachable 0x0a010000 16 3]

/-- A route to 10.0.0.0/8 is put in, and 10.1.0.0/16 is forbidden. -/
def forbiddenCalls : List FibEvent :=
  [routeCall .unicast 0x0a000000 8 1, routeCall .prohibit 0x0a010000 16 2]

/-- The local table hands the destination on, and the main table forbids it, though a shorter prefix
has a route: neither error is the one that comes back. -/
theorem fib_lookup_local_first_forbidden :
    ∃ s s', fibMachine.run unreachableCalls = some s ∧ fibMachine.run forbiddenCalls = some s' ∧
    ∃ fuel, ∀ n, fuel ≤ n → fibLookup (fun _ => oneHop) ⟨0x0a010203, 0, 0, 0⟩ n ⟨s.1, s'.1⟩ =
      some (.error (-eNETUNREACH)) := by
  refine ⟨_, _, rfl, rfl, ?_⟩
  obtain ⟨fuel, hfuel⟩ := fib_lookup_local_first ⟨_, _⟩
    (fibMachine.reachable_of_run (rfl : fibMachine.run unreachableCalls = some (_, _)))
    (fibMachine.reachable_of_run (rfl : fibMachine.run forbiddenCalls = some (_, _)))
    (fun _ => oneHop) ⟨0x0a010203, 0, 0, 0⟩
  refine ⟨fuel, fun n hle => (hfuel n hle).trans ?_⟩
  decide +kernel

/-- The trie says what its routes do. -/
theorem TableOk.addrType (tables : FibTables) (hok : TableOk tables.localTable)
    (info : ℕ → FibInfo) (addr : TKey) :
    ∃ fuel, ∀ n, fuel ≤ n →
      inetAddrType info n tables addr = some ((routes tables.localTable).addrType info addr) := by
  obtain ⟨fuel, hfuel⟩ := hok.lookup info ⟨addr, 0, 0, 0⟩
  refine ⟨fuel, fun n hle => ?_⟩
  rw [inetAddrType, Routes.addrType, hfuel n hle]
  split
  next => rfl
  next =>
    split
    next => rfl
    next => rfl

theorem Routes.addrType_local_iff {info : ℕ → FibInfo} {addr : TKey} :
    localRoutes.addrType info addr = .local ↔ ipv4IsZeronet addr = false ∧
      ipv4IsLbcast addr = false ∧ ipv4IsMulticast addr = false ∧
      ∃ res, localRoutes.longestMatch info ⟨addr, 0, 0, 0⟩ = some (.found res) ∧
        res.type = .local := by
  rw [Routes.addrType]
  cases ipv4IsZeronet addr with
  | true => simp
  | false =>
      cases ipv4IsLbcast addr with
      | true => simp
      | false =>
          cases ipv4IsMulticast addr with
          | true => simp
          | false =>
              cases localRoutes.longestMatch info ⟨addr, 0, 0, 0⟩ with
              | none => simp [foundRes]
              | some answer => cases answer <;> simp [foundRes]

/-- **Whose an address is.**  After any events in the local table, `inet_addr_type` ends, and it
says that an address is local if and only if its longest match is a local route and it is none of
the addresses that need no table. -/
theorem inet_addr_type_local_iff (tables : FibTables)
    (hlocal : fibMachine.Reachable (tables.localTable, localRoutes))
    (info : ℕ → FibInfo) (addr : TKey) :
    ∃ fuel type, (∀ n, fuel ≤ n → inetAddrType info n tables addr = some type) ∧
      (type = .local ↔ ipv4IsZeronet addr = false ∧ ipv4IsLbcast addr = false ∧
        ipv4IsMulticast addr = false ∧
        ∃ res, localRoutes.longestMatch info ⟨addr, 0, 0, 0⟩ = some (.found res) ∧
          res.type = .local) := by
  obtain ⟨hok, rfl⟩ := fibMachine_routes hlocal
  obtain ⟨fuel, hfuel⟩ := TableOk.addrType tables hok info addr
  exact ⟨fuel, _, hfuel, Routes.addrType_local_iff⟩

/-- 10.0.0.1 is an address of this host, in 10.0.0.0/8. -/
def ownCalls : List FibEvent :=
  [routeCall .unicast 0x0a000000 8 1, routeCall .local 0x0a000001 32 2]

theorem inet_addr_type_local_iff_own : ∃ s, fibMachine.run ownCalls = some s ∧
    ∃ fuel, ∀ n, fuel ≤ n →
      inetAddrType (fun _ => oneHop) n ⟨s.1, .null⟩ 0x0a000001 = some .local := by
  refine ⟨_, rfl, ?_⟩
  obtain ⟨fuel, type, htype, hiff⟩ := inet_addr_type_local_iff ⟨_, .null⟩
    (fibMachine.reachable_of_run (rfl : fibMachine.run ownCalls = some (_, _)))
    (fun _ => oneHop) 0x0a000001
  have hlocal : type = .local :=
    hiff.mpr ⟨by decide, by decide, by decide, ⟨32, 0, .local, 0, 2⟩, by decide +kernel, rfl⟩
  exact ⟨fuel, fun n hle => hlocal ▸ htype n hle⟩

section Magic

variable {info : ℕ → FibInfo} {type : RouteType} {fi ifaLocal : ℕ} {fibNhMatch : ℕ → Bool}

def rtScopeLink : ℕ := 253

def rtScopeHost : ℕ := 254

def rtprotKernel : ℕ := 2

/-- The `struct fib_config` of `fib_magic`. -/
def fibMagicCfg (type : RouteType) (dst : TKey) (dstLen ifaLocal : ℕ) (fibNhMatch : ℕ → Bool) :
    FibConfig where
  fcDstLen := dstLen
  fcDst := dst
  fcTos := 0
  fcType := type
  fcScope := if type ≠ .local then rtScopeLink else rtScopeHost
  fcPrefsrc := ifaLocal
  fcProtocol := rtprotKernel
  fcNlflags := nlmFCreate ||| nlmFAppend
  fibNhMatch := fibNhMatch

/-- `RTM_NEWROUTE` or `RTM_DELROUTE`. -/
inductive RtmCmd
  | newRoute
  | delRoute
  deriving DecidableEq, Repr

/-- `fib_magic`; `fi` is what `fib_create_info` returns. -/
def fibMagic (mem : Memory) (info : ℕ → FibInfo) (cmd : RtmCmd) (type : RouteType) (dst : TKey)
    (dstLen ifaLocal : ℕ) (fibNhMatch : ℕ → Bool) (fi : Except ℤ ℕ) (tables : FibTables) :
    FibTables :=
  let cfg := fibMagicCfg type dst dstLen ifaLocal fibNhMatch
  let change (tb : Trie) : Trie :=
    match cmd with
    | .newRoute => (fibTableInsert mem info cfg fi tb).2
    | .delRoute => (fibTableDelete mem info cfg tb).2
  if type = .unicast then { tables with mainTable := change tables.mainTable }
  else { tables with localTable := change tables.localTable }

/-- A `struct fib_info` that is in use. -/
def FibInfo.Alive (fi : FibInfo) : Prop :=
  fi.fibDead = false ∧ fi.fibFlags &&& rtnhFDead = 0 ∧
    ∃ nh ∈ fi.fibNh, nh.nhFlags &&& rtnhFDead = 0

/-- An alias that is in use answers, when nothing special is asked for. -/
theorem checkAlias_of_alive (halive : (info fi).Alive) (htype : type.error = 0) (addr : TKey)
    (plen : ℕ) :
    ∃ res, checkAlias info ⟨addr, 0, 0, 0⟩ plen ⟨0, type, fi⟩ = some (.found res) ∧
      res.type = type := by
  obtain ⟨hdead, hflags, nh, hmem, hnh⟩ := halive
  obtain ⟨nhsel, hsel⟩ : ∃ nhsel,
      (info fi).fibNh.findIdx? (fun nh => decide (nh.nhFlags &&& rtnhFDead = 0)) = some nhsel := by
    rw [← Option.isSome_iff_exists, List.findIdx?_isSome, List.any_eq_true]
    exact ⟨nh, hmem, decide_eq_true hnh⟩
  exact ⟨⟨plen, nhsel, type, (info fi).fibScope, fi⟩,
    by simp [checkAlias, hdead, hflags, htype, hsel], rfl⟩

/-- The longest match of an address that has routes of its own, when the first one answers. -/
theorem longestMatch_of_own {flp : Flowi4} {r : Routes} {fa : FibAlias} {rest : List FibAlias}
    {answer : LookupAnswer} (hown : r flp.daddr 32 = fa :: rest)
    (hanswer : checkAlias info flp 32 fa = some answer) :
    r.longestMatch info flp = some answer := by
  have hkeep : keep flp.daddr 32 = flp.daddr := keep_of_le le_rfl
  rw [Routes.longestMatch, List.range_succ, List.reverse_append, List.reverse_singleton,
    List.singleton_append, List.findSome?_cons, hkeep, hown, List.findSome?_cons, hanswer]

theorem aliasChange_magic {dst : TKey} {dstLen : ℕ} :
    aliasChange info (fibMagicCfg type dst dstLen ifaLocal fibNhMatch) fi [] = .ok (.insert 0) := by
  simp [aliasChange, fibFindAlias, fibMagicCfg, nlmFCreate, nlmFAppend]

theorem Routes.insert_magic {addr : TKey} {r : Routes} (hnew : r addr 32 = []) :
    Routes.insert info (fibMagicCfg type addr 32 ifaLocal fibNhMatch) (.ok fi) r =
      (0, r.write addr 32 [⟨0, type, fi⟩]) := by
  have hkeep : keep addr 32 = addr := keep_of_le le_rfl
  have hown : r (fibMagicCfg type addr 32 ifaLocal fibNhMatch).fcDst
      (fibMagicCfg type addr 32 ifaLocal fibNhMatch).fcDstLen = [] := hnew
  rw [Routes.insert.eq_def, if_neg (by simp [fibMagicCfg, hkeep]), hown]
  dsimp only
  rw [aliasChange_magic]
  rfl

/-- **A new address is known.**  When the local table has no route of the address itself yet,
whatever else it has gone through, the route that `fib_magic` puts in decides the type of the
address as long as its next hop lives, unless the insertion runs out of memory, which changes
nothing.  An address that is typed without the table is left out: no route counts there. -/
theorem fib_magic_sets_type (tables : FibTables)
    (hlocal : fibMachine.Reachable (tables.localTable, localRoutes)) (mem : Memory)
    (info info' : ℕ → FibInfo) (addr : TKey) (type : RouteType) (fi ifaLocal : ℕ)
    (fibNhMatch : ℕ → Bool) (hnew : localRoutes addr 32 = []) (halive : (info' fi).Alive)
    (htype : type = .local ∨ type = .broadcast) (hzero : ipv4IsZeronet addr = false)
    (hlbcast : ipv4IsLbcast addr = false) (hmulti : ipv4IsMulticast addr = false) :
    (outOfMemory (fibTableInsert mem info (fibMagicCfg type addr 32 ifaLocal fibNhMatch) (.ok fi)
        tables.localTable).1 = true ∧
      fibMagic mem info .newRoute type addr 32 ifaLocal fibNhMatch (.ok fi) tables = tables) ∨
      ∃ fuel, ∀ n, fuel ≤ n → inetAddrType info' n
        (fibMagic mem info .newRoute type addr 32 ifaLocal fibNhMatch (.ok fi) tables) addr =
          some type := by
  obtain ⟨hok, rfl⟩ := fibMachine_routes hlocal
  obtain ⟨hok', hfollows⟩ := fibTableInsert_spec hok mem info
    (fibMagicCfg type addr 32 ifaLocal fibNhMatch) (.ok fi)
  have herror : type.error = 0 := by rcases htype with rfl | rfl <;> rfl
  have hmagic : fibMagic mem info .newRoute type addr 32 ifaLocal fibNhMatch (.ok fi) tables =
      { tables with localTable := (fibTableInsert mem info
        (fibMagicCfg type addr 32 ifaLocal fibNhMatch) (.ok fi) tables.localTable).2 } :=
    if_neg (by rcases htype with rfl | rfl <;> decide)
  rw [hmagic]
  rcases hfollows with hspec | ⟨hout, hsame⟩
  · rw [Routes.insert_magic hnew] at hspec
    have hroutes := congrArg Prod.snd hspec
    dsimp only at hroutes
    obtain ⟨res, hres, rfl⟩ := checkAlias_of_alive halive herror addr 32
    obtain ⟨fuel, hfuel⟩ := TableOk.addrType ⟨_, tables.mainTable⟩ hok' info' addr
    refine .inr ⟨fuel, fun n hle => (hfuel n hle).trans ?_⟩
    rw [hroutes, Routes.addrType, hzero, hlbcast, hmulti, longestMatch_of_own
      (if_pos ⟨rfl, rfl⟩) hres]
    rfl
  · exact .inl ⟨hout, by rw [hsame]⟩

theorem fib_magic_sets_type_nested : ∃ s, fibMachine.run nestedCalls = some s ∧
    ∃ fuel, ∀ n, fuel ≤ n → inetAddrType (fun _ => oneHop) n
      (fibMagic (fun _ => true) (fun _ => oneHop) .newRoute .local 0x0a010001 32 0x0a010001
        (fun _ => true) (.ok 3) ⟨s.1, .null⟩) 0x0a010001 = some .local := by
  refine ⟨_, rfl, ?_⟩
  rcases fib_magic_sets_type ⟨_, .null⟩
    (fibMachine.reachable_of_run (rfl : fibMachine.run nestedCalls = some (_, _)))
    (fun _ => true) (fun _ => oneHop) (fun _ => oneHop) 0x0a010001 .local 3 0x0a010001
    (fun _ => true) (by decide +kernel) ⟨rfl, rfl, _, List.mem_cons_self, rfl⟩ (.inl rfl)
    (by decide) (by decide) (by decide) with ⟨hout, -⟩ | htype
  · exact absurd hout (by decide +kernel)
  · exact htype

end Magic

end IpAugenblick.FibTrie
