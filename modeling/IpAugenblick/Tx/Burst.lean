/-
# A burst of datagrams

`user_on_transmission_opportunity` dequeues all buffers of a datagram socket and gives each to
`udp_sendmsg`.  A result that is not positive ends the burst, and the loop frees the buffer at hand
and those behind it.

The result does not say who has the buffer.  An error of `ip_send_skb` comes after the skb has
taken it, and the loop frees it a second time.  Without memory for the skb the result is the length
of the datagram, as for one that was sent, and nobody frees the buffer.  The result for an empty
datagram is 0, and the loop drops those behind it.
-/

import IpAugenblick.Stack.MakeSkb
import Mathlib.Data.List.Nodup
import Mathlib.Tactic.SplitIfs

namespace IpAugenblick

/-- What `udp_sendmsg` reads of a datagram socket that is not corked. -/
structure UdpSock where
  inet : InetSock
  established : Bool
  /-- `inet_daddr`. -/
  daddr : ℕ
  /-- The socket has options with a source route. -/
  srr : Bool
  recverr : Bool

/-- A dequeued buffer, and what its `udp_sendmsg` meets. -/
structure TxDatagram where
  data : List UInt8
  /-- The `sockaddr_in` in front of the data. -/
  family : ℕ
  port : ℕ
  addr : ℕ
  /-- The error of `ip_route_output_flow`, 0 when there is a route. -/
  routeErr : ℕ
  /-- The route is a broadcast and the socket may not. -/
  broadcastDenied : Bool
  rt : UdpRoute
  saddr : ℕ
  txFlags : UInt8
  /-- The error of `sock_alloc_send_skb`, 0 when there is memory. -/
  allocErr : ℕ
  /-- What `ip_local_out` returns. -/
  localOut : ℤ

def afInet : ℕ := 2

def netXmitCn : ℤ := 2

def einval : ℤ := 22

def eacces : ℤ := 13

def eafnosupport : ℤ := 97

def enobufs : ℤ := 105

namespace TxDatagram

variable (sk : UdpSock) (d : TxDatagram)

/-- `daddr` of `udp_sendmsg`. -/
def daddr : ℕ := if sk.established then sk.daddr else d.addr

/-- The error of `udp_sendmsg` before it builds an skb, or 0. -/
def earlyErr : ℤ :=
  if sk.established = false ∧ d.family ≠ afInet ∧ d.family ≠ 0 then -eafnosupport
  else if sk.established = false ∧ d.port = 0 then -einval
  else if sk.srr ∧ d.daddr sk = 0 then -einval
  else if d.routeErr ≠ 0 then -d.routeErr
  else if d.broadcastDenied then -eacces
  else 0

/-- The call of `ipaugenblick_make_skb`: there is no control data. -/
def makeSkb : MakeSkb where
  sk := sk.inet
  saddr := d.saddr
  daddr := d.daddr sk
  rt := d.rt
  ipc := ⟨d.txFlags, 0, -1, noTos_range, 0⟩
  chain := [d.data]
  allocErr := d.allocErr

def ipSendSkb : ℤ :=
  if 0 < d.localOut then (if d.localOut ≠ netXmitCn then -enobufs else 0) else d.localOut

def udpSendSkb : ℤ :=
  if d.ipSendSkb = -enobufs ∧ sk.recverr = false then 0 else d.ipSendSkb

/-- `udp_sendmsg`: its result, and the skb that it has handed to the IP layer. -/
def udpSendmsg : ℤ × Option UdpSkb :=
  if d.earlyErr sk ≠ 0 then (d.earlyErr sk, none)
  else
    match (d.makeSkb sk).ipaugenblickMakeSkb.1 with
    | .null => (d.data.length, none)
    | .err err => (-err, none)
    | .skb skb => (if d.udpSendSkb sk = 0 then (d.data.length : ℤ) else d.udpSendSkb sk, some skb)

end TxDatagram

/-- What has become of the buffers of a burst, by their number. -/
structure BurstOutcome where
  /-- The buffers in skbs that were handed to the IP layer. -/
  owned : List ℕ
  /-- The datagrams that were handed to the IP layer. -/
  sent : List ℕ
  /-- The buffers that the loop has freed. -/
  freed : List ℕ
  /-- The datagrams whose `udp_sendmsg` has returned an error. -/
  errors : List ℕ
  exhausted : Bool
  deriving DecidableEq, Repr

/-- The loop over a burst, from buffer `i` on. -/
def sendBurst (sk : UdpSock) : ℕ → List TxDatagram → BurstOutcome
  | _, [] => ⟨[], [], [], [], false⟩
  | i, d :: burst =>
      let (rc, skb) := d.udpSendmsg sk
      let rest : BurstOutcome :=
        if 0 < rc then sendBurst sk (i + 1) burst
        else ⟨[], [], List.range' i (burst.length + 1), [], true⟩
      { rest with
        owned := if (skb.elim [] UdpSkb.frags).isEmpty then rest.owned else i :: rest.owned
        sent := if skb.isNone then rest.sent else i :: rest.sent
        errors := if rc < 0 then i :: rest.errors else rest.errors }

/-- The datagram branch of `user_on_transmission_opportunity`, for what the ring has each time it
is looked at: the bursts that are dequeued, with what becomes of them. -/
def sendBursts (sk : UdpSock) : List (List TxDatagram) → List (List TxDatagram × BurstOutcome)
  | [] | [] :: _ => []
  | burst :: bursts =>
      (burst, sendBurst sk 0 burst) ::
        if (sendBurst sk 0 burst).exhausted then [] else sendBursts sk bursts

/-- Each of the `n` buffers from `i` on is in one skb or was freed once, and a datagram that was
not handed to the IP layer comes with or after an error. -/
structure BurstOutcome.ConsumedOnce (o : BurstOutcome) (i n : ℕ) : Prop where
  once : ∀ j, i ≤ j → j < i + n → o.owned.count j + o.freed.count j = 1
  discarded : ∀ j, i ≤ j → j < i + n → j ∉ o.sent → ∃ k ∈ o.errors, k ≤ j

structure TxDatagram.GoesOut (sk : UdpSock) (d : TxDatagram) : Prop where
  early : d.earlyErr sk = 0
  memory : d.allocErr = 0
  sent : d.udpSendSkb sk = 0
  data : d.data ≠ []

/-- The first datagram that does not go out with data fails before its skb is built; or it is
empty, has an skb, and `ip_send_skb` fails or the datagram is the last one. -/
def BurstOk (sk : UdpSock) (burst : List TxDatagram) : Prop :=
  ∀ before d after, burst = before ++ d :: after → (∀ e ∈ before, e.GoesOut sk) →
    d.GoesOut sk ∨ d.earlyErr sk ≠ 0 ∨
      d.allocErr = 0 ∧ d.data = [] ∧ (d.udpSendSkb sk ≠ 0 ∨ after = [])

/-! ## One call -/

section Call

variable {sk : UdpSock} {d : TxDatagram}

theorem earlyErr_neg (h : d.earlyErr sk ≠ 0) : d.earlyErr sk < 0 := by
  unfold TxDatagram.earlyErr at h ⊢
  split_ifs at h ⊢ with hname hport hsource hroute hdenied
  · decide
  · decide
  · decide
  · exact Int.neg_neg_of_pos (Int.natCast_pos.mpr (Nat.pos_of_ne_zero hroute))
  · decide
  · exact absurd rfl h

theorem udpSendSkb_neg (h : d.udpSendSkb sk ≠ 0) : d.udpSendSkb sk < 0 := by
  have hsend : d.ipSendSkb ≤ 0 := by
    unfold TxDatagram.ipSendSkb
    split
    next =>
        split
        · decide
        · exact le_rfl
    next hpos => exact Int.not_lt.mp hpos
  unfold TxDatagram.udpSendSkb at h ⊢
  split
  next htolerated => exact absurd (if_pos htolerated) h
  next hpassed =>
      rw [if_neg hpassed] at h
      exact lt_of_le_of_ne hsend h

theorem udpSendmsg_of_early (h : d.earlyErr sk ≠ 0) : d.udpSendmsg sk = (d.earlyErr sk, none) :=
  if_pos h

/-- Without memory the result is that of a datagram that was sent. -/
theorem udpSendmsg_of_no_memory (hearly : d.earlyErr sk = 0) (halloc : d.allocErr ≠ 0) :
    d.udpSendmsg sk = ((d.data.length : ℤ), none) := by
  have hnull : (d.makeSkb sk).ipaugenblickMakeSkb.1 = .null := by
    unfold MakeSkb.ipaugenblickMakeSkb
    exact congrArg Prod.fst (if_pos halloc)
  unfold TxDatagram.udpSendmsg
  rw [if_neg (not_not.mpr hearly), hnull]

/-- The skb has the buffer if there is data in it. -/
theorem udpSendmsg_of_memory (hearly : d.earlyErr sk = 0) (halloc : d.allocErr = 0) :
    ∃ skb, skb.frags.isEmpty = d.data.isEmpty ∧ d.udpSendmsg sk =
      (if d.udpSendSkb sk = 0 then (d.data.length : ℤ) else d.udpSendSkb sk, some skb) := by
  have hmade : ∃ skb, (d.makeSkb sk).ipaugenblickMakeSkb.1 = .skb skb ∧
      skb.frags = (d.makeSkb sk).getfrag := by
    unfold MakeSkb.ipaugenblickMakeSkb
    refine ⟨_, congrArg Prod.fst (if_neg (not_not.mpr halloc)), rfl⟩
  obtain ⟨skb, hskb, hfrags⟩ := hmade
  refine ⟨skb, ?_, ?_⟩
  · rw [hfrags]
    unfold MakeSkb.getfrag TxDatagram.makeSkb
    by_cases hdata : d.data = []
    · simp [hdata]
    · simp [hdata]
  · unfold TxDatagram.udpSendmsg
    rw [if_neg (not_not.mpr hearly), hskb]

end Call

/-! ## The loop -/

section Loop

variable {sk : UdpSock} {d : TxDatagram} {burst : List TxDatagram} {i : ℕ}

/-- The buffers of the rest of a burst have later numbers. -/
structure BurstOutcome.From (o : BurstOutcome) (i : ℕ) : Prop where
  owned : ∀ j ∈ o.owned, i ≤ j
  freed : ∀ j ∈ o.freed, i ≤ j
  errors : ∀ j ∈ o.errors, i ≤ j

theorem sendBurst_from (sk : UdpSock) (i : ℕ) (burst : List TxDatagram) :
    (sendBurst sk i burst).From i := by
  induction burst generalizing i with
  | nil => exact ⟨nofun, nofun, nofun⟩
  | cons d burst ih =>
      have hrest : (if 0 < (d.udpSendmsg sk).1 then sendBurst sk (i + 1) burst
          else ⟨[], [], List.range' i (burst.length + 1), [], true⟩ : BurstOutcome).From i := by
        split
        · have h := ih (i + 1)
          exact ⟨fun j hj => Nat.le_of_succ_le (h.owned j hj),
            fun j hj => Nat.le_of_succ_le (h.freed j hj),
            fun j hj => Nat.le_of_succ_le (h.errors j hj)⟩
        · exact ⟨nofun, fun j hj => (List.mem_range'_1.mp hj).1, nofun⟩
      unfold sendBurst
      dsimp only
      refine ⟨fun j hj => ?_, hrest.freed, fun j hj => ?_⟩
      · dsimp only at hj
        split at hj
        · exact hrest.owned j hj
        · rcases List.mem_cons.mp hj with rfl | hj
          · exact le_rfl
          · exact hrest.owned j hj
      · dsimp only at hj
        split at hj
        · rcases List.mem_cons.mp hj with rfl | hj
          · exact le_rfl
          · exact hrest.errors j hj
        · exact hrest.errors j hj

/-- A result that is not positive ends the loop. -/
theorem sendBurst_stop {rc : ℤ} {skb : Option UdpSkb} (hcall : d.udpSendmsg sk = (rc, skb))
    (hrc : ¬ 0 < rc) :
    sendBurst sk i (d :: burst) =
      ⟨if (skb.elim [] UdpSkb.frags).isEmpty then [] else [i], if skb.isNone then [] else [i],
        List.range' i (burst.length + 1), if rc < 0 then [i] else [], true⟩ := by
  rw [sendBurst]
  simp only [hcall, if_neg hrc]

/-- When the loop has ended, the buffer must not be in an skb, and there must have been an error
unless the datagram was sent and is the last. -/
theorem consumedOnce_stop_iff {n : ℕ} {owned sent errors : List ℕ}
    (howned : owned = [] ∨ owned = [i]) (hsent : sent = [] ∨ sent = [i])
    (herrors : errors = [] ∨ errors = [i]) :
    (⟨owned, sent, List.range' i (n + 1), errors, true⟩ : BurstOutcome).ConsumedOnce i (n + 1) ↔
      owned = [] ∧ (errors ≠ [] ∨ sent ≠ [] ∧ n = 0) := by
  have hfreed : ∀ j, i ≤ j → j < i + (n + 1) → (List.range' i (n + 1)).count j = 1 := by
    intro j hle hlt
    exact List.count_eq_one_of_mem List.nodup_range' (List.mem_range'_1.mpr ⟨hle, hlt⟩)
  constructor
  · intro h
    have hself := h.once i le_rfl (by omega)
    dsimp only at hself
    rw [hfreed i le_rfl (by omega)] at hself
    refine ⟨?_, ?_⟩
    · rcases howned with hnil | hone
      · exact hnil
      · rw [hone, List.count_singleton_self] at hself
        omega
    · rcases herrors with hnone | hone
      · refine .inr ?_
        have hlast := fun hnot => h.discarded (i + n) (by omega) (by omega) hnot
        dsimp only at hlast
        rw [hnone] at hlast
        have hmem : i + n ∈ sent := by
          by_contra hnot
          obtain ⟨k, hk, _⟩ := hlast hnot
          cases hk
        rcases hsent with hnil | hsome
        · rw [hnil] at hmem
          cases hmem
        · rw [hsome, List.mem_singleton] at hmem
          exact ⟨by rw [hsome]; nofun, by omega⟩
      · exact .inl (by rw [hone]; nofun)
  · rintro ⟨hnil, hrest⟩
    refine ⟨fun j hle hlt => ?_, fun j hle hlt hnot => ?_⟩
    · dsimp only
      rw [hnil, List.count_nil, hfreed j hle hlt]
    · rcases hrest with herr | ⟨hsome, hn⟩
      · exact ⟨i, by rw [herrors.resolve_left herr]; exact List.mem_cons_self, hle⟩
      · refine absurd ?_ hnot
        dsimp only
        rw [hsent.resolve_left hsome, List.mem_singleton]
        omega

/-- A datagram that goes out leaves the rest to the loop. -/
theorem sendBurst_goesOut (h : d.GoesOut sk) :
    sendBurst sk i (d :: burst) =
      { sendBurst sk (i + 1) burst with
        owned := i :: (sendBurst sk (i + 1) burst).owned
        sent := i :: (sendBurst sk (i + 1) burst).sent } := by
  obtain ⟨skb, hfrags, hcall⟩ := udpSendmsg_of_memory h.early h.memory
  have hlength : (0 : ℤ) < d.data.length := by
    exact Int.natCast_pos.mpr (List.length_pos_iff.mpr h.data)
  rw [if_pos h.sent] at hcall
  rw [sendBurst]
  simp only [hcall, if_pos hlength, Option.elim_some, hfrags, List.isEmpty_eq_false_iff.mpr h.data,
    Option.isNone_some, Bool.false_eq_true, if_false, if_neg hlength.not_gt]

theorem consumedOnce_goesOut_iff (h : d.GoesOut sk) :
    (sendBurst sk i (d :: burst)).ConsumedOnce i (burst.length + 1) ↔
      (sendBurst sk (i + 1) burst).ConsumedOnce (i + 1) burst.length := by
  have hfrom := sendBurst_from sk (i + 1) burst
  rw [sendBurst_goesOut h]
  set o := sendBurst sk (i + 1) burst
  constructor
  · intro hone
    refine ⟨fun j hle hlt => ?_, fun j hle hlt hnot => ?_⟩
    · have hj := hone.once j (by omega) (by omega)
      have hne : i ≠ j := by omega
      dsimp only at hj
      rwa [List.count_cons_of_ne hne] at hj
    · refine hone.discarded j (by omega) (by omega) fun hmem => ?_
      rcases List.mem_cons.mp hmem with hji | hmem
      · omega
      · exact hnot hmem
  · intro hrest
    have howned : i ∉ o.owned := fun hi => absurd (hfrom.owned i hi) (by omega)
    have hfreed : i ∉ o.freed := fun hi => absurd (hfrom.freed i hi) (by omega)
    refine ⟨fun j hle hlt => ?_, fun j hle hlt hnot => ?_⟩
    · by_cases hj : j = i
      · subst hj
        dsimp only
        rw [List.count_cons_self, List.count_eq_zero_of_not_mem howned,
          List.count_eq_zero_of_not_mem hfreed]
      · dsimp only
        rw [List.count_cons_of_ne (Ne.symm hj)]
        exact hrest.once j (by omega) (by omega)
    · have hj : j ≠ i := by
        rintro rfl
        exact hnot List.mem_cons_self
      exact hrest.discarded j (by omega) (by omega) fun hmem => hnot (List.mem_cons_of_mem i hmem)

theorem burstOk_cons_iff :
    BurstOk sk (d :: burst) ↔ d.GoesOut sk ∧ BurstOk sk burst ∨ d.earlyErr sk ≠ 0 ∨
      d.allocErr = 0 ∧ d.data = [] ∧ (d.udpSendSkb sk ≠ 0 ∨ burst = []) := by
  constructor
  · intro h
    rcases h [] d burst rfl nofun with hout | hstop
    · refine .inl ⟨hout, fun before e after heq hbefore => ?_⟩
      refine h (d :: before) e after (by rw [heq]; rfl) fun x hx => ?_
      rcases List.mem_cons.mp hx with rfl | hx
      · exact hout
      · exact hbefore x hx
    · exact .inr hstop
  · intro h before e after heq hbefore
    cases before with
    | nil =>
        obtain ⟨rfl, rfl⟩ := List.cons.inj heq
        exact h.imp And.left id
    | cons x before =>
        obtain ⟨rfl, hrest⟩ := List.cons.inj heq
        have hout := hbefore d List.mem_cons_self
        have hburst : BurstOk sk burst := by
          rcases h with ⟨_, hburst⟩ | hearly | ⟨_, hdata, _⟩
          · exact hburst
          · exact absurd hout.early hearly
          · exact absurd hdata hout.data
        exact hburst before e after hrest fun y hy => hbefore y (List.mem_cons_of_mem _ hy)

/-- A datagram that does not go out ends the loop well in the cases of `BurstOk` only. -/
theorem consumedOnce_not_goesOut_iff (h : ¬ d.GoesOut sk) :
    (sendBurst sk i (d :: burst)).ConsumedOnce i (burst.length + 1) ↔ d.earlyErr sk ≠ 0 ∨
      d.allocErr = 0 ∧ d.data = [] ∧ (d.udpSendSkb sk ≠ 0 ∨ burst = []) := by
  by_cases hearly : d.earlyErr sk = 0
  · have hiff : (d.earlyErr sk ≠ 0 ∨ d.allocErr = 0 ∧ d.data = [] ∧
        (d.udpSendSkb sk ≠ 0 ∨ burst = [])) ↔
        d.allocErr = 0 ∧ d.data = [] ∧ (d.udpSendSkb sk ≠ 0 ∨ burst = []) :=
      or_iff_right (not_not.mpr hearly)
    rw [hiff]
    by_cases halloc : d.allocErr = 0
    · obtain ⟨skb, hfrags, hcall⟩ := udpSendmsg_of_memory hearly halloc
      by_cases hsend : d.udpSendSkb sk = 0
      · have hdata : d.data = [] := by
          by_contra hdata
          exact h ⟨hearly, halloc, hsend, hdata⟩
        rw [if_pos hsend, hdata] at hcall
        rw [hdata] at hfrags
        rw [sendBurst_stop hcall (by decide)]
        simp only [Option.elim_some, hfrags, List.isEmpty_nil, if_true, Option.isNone_some,
          Bool.false_eq_true, if_false, List.length_nil, Int.ofNat_zero, lt_irrefl]
        rw [consumedOnce_stop_iff (.inl rfl) (.inr rfl) (.inl rfl)]
        simp [halloc, hdata, hsend]
      · have hneg := udpSendSkb_neg hsend
        rw [if_neg hsend] at hcall
        rw [sendBurst_stop hcall hneg.not_gt]
        simp only [Option.elim_some, hfrags, Option.isNone_some, Bool.false_eq_true, if_false,
          if_pos hneg]
        by_cases hdata : d.data = []
        · rw [if_pos (List.isEmpty_iff.mpr hdata),
            consumedOnce_stop_iff (.inl rfl) (.inr rfl) (.inr rfl)]
          simp [halloc, hdata, hsend]
        · rw [if_neg (mt List.isEmpty_iff.mp hdata),
            consumedOnce_stop_iff (.inr rfl) (.inr rfl) (.inr rfl)]
          simp [hdata]
    · have hcall := udpSendmsg_of_no_memory hearly halloc
      refine iff_of_false (fun hone => ?_) fun hok => halloc hok.1
      by_cases hdata : d.data = []
      · rw [hdata] at hcall
        rw [sendBurst_stop hcall (by decide)] at hone
        simp only [Option.elim_none, List.isEmpty_nil, Option.isNone_none, if_true,
          List.length_nil, Int.ofNat_zero, lt_irrefl, if_false] at hone
        rw [consumedOnce_stop_iff (.inl rfl) (.inl rfl) (.inl rfl)] at hone
        simp at hone
      · have hlength : (0 : ℤ) < d.data.length :=
          Int.natCast_pos.mpr (List.length_pos_iff.mpr hdata)
        have hfrom := sendBurst_from sk (i + 1) burst
        have hself := hone.once i le_rfl (by omega)
        rw [sendBurst] at hself
        simp only [hcall, if_pos hlength, Option.elim_none, List.isEmpty_nil, if_true] at hself
        have howned : i ∉ (sendBurst sk (i + 1) burst).owned :=
          fun hi => absurd (hfrom.owned i hi) (by omega)
        have hfreed : i ∉ (sendBurst sk (i + 1) burst).freed :=
          fun hi => absurd (hfrom.freed i hi) (by omega)
        rw [List.count_eq_zero_of_not_mem howned, List.count_eq_zero_of_not_mem hfreed] at hself
        cases hself
  · have hneg := earlyErr_neg hearly
    have hcall := udpSendmsg_of_early hearly
    rw [sendBurst_stop hcall hneg.not_gt]
    simp only [Option.elim_none, List.isEmpty_nil, Option.isNone_none, if_true, if_pos hneg]
    rw [consumedOnce_stop_iff (.inl rfl) (.inl rfl) (.inr rfl)]
    simp [hearly]

theorem consumedOnce_iff (sk : UdpSock) (i : ℕ) (burst : List TxDatagram) :
    (sendBurst sk i burst).ConsumedOnce i burst.length ↔ BurstOk sk burst := by
  induction burst generalizing i with
  | nil =>
      refine iff_of_true ⟨fun j hle hlt => ?_, fun j hle hlt => ?_⟩ fun before d after heq => ?_
      · simp at hlt
        omega
      · simp at hlt
        omega
      · cases before with
        | nil => cases heq
        | cons x before => cases heq
  | cons d burst ih =>
      rw [burstOk_cons_iff, List.length_cons]
      by_cases hout : d.GoesOut sk
      · rw [consumedOnce_goesOut_iff hout, ih]
        constructor
        · exact fun hok => .inl ⟨hout, hok⟩
        · rintro (⟨_, hok⟩ | hearly | ⟨_, hdata, _⟩)
          · exact hok
          · exact absurd hout.early hearly
          · exact absurd hdata hout.data
      · rw [consumedOnce_not_goesOut_iff hout]
        exact (or_iff_right fun hboth => hout hboth.1).symm

end Loop

/-- **Datagram buffers.**  In every burst that a transmission opportunity dequeues, each buffer is
in one skb that was handed to the IP layer or is freed once by the loop, and datagrams are discarded
only with or after an error, if and only if the first datagram that does not go out with data fails
before its skb is built, or is empty, has an skb, and is refused by the IP layer or the last. -/
theorem datagram_buffers_consumed_iff (sk : UdpSock) (bursts : List (List TxDatagram))
    (burst : List TxDatagram) (o : BurstOutcome) (hburst : (burst, o) ∈ sendBursts sk bursts) :
    o.ConsumedOnce 0 burst.length ↔ BurstOk sk burst := by
  have houtcome : o = sendBurst sk 0 burst := by
    induction bursts with
    | nil => cases hburst
    | cons first bursts ih =>
        cases first with
        | nil => cases hburst
        | cons d first =>
            rw [sendBursts] at hburst
            rcases List.mem_cons.mp hburst with heq | hburst
            · obtain ⟨rfl, rfl⟩ := Prod.mk.inj heq
              rfl
            · split at hburst
              · cases hburst
              · exact ih hburst
            · nofun
  rw [houtcome]
  exact consumedOnce_iff sk 0 burst

def defaultSock : UdpSock := ⟨⟨.udp, .want, 0, -1, 1, 0, 0⟩, false, 0, false, false⟩

def sentDatagram : TxDatagram where
  data := [1, 2, 3]
  family := afInet
  port := 7
  addr := 0x0A000002
  routeErr := 0
  broadcastDenied := false
  rt := ⟨false, 1500, ethernetMtu_le, 1500, false, 64, 0, true⟩
  saddr := 0x0A000001
  txFlags := 0
  allocErr := 0
  localOut := 0

/-- The second datagram of the burst has no route: it and the third are freed. -/
theorem datagram_buffers_consumed_unrouted :
    ∃ o, ([sentDatagram, { sentDatagram with routeErr := 101 }, sentDatagram], o) ∈ sendBursts
      defaultSock [[sentDatagram, { sentDatagram with routeErr := 101 }, sentDatagram]] ∧
    o.owned = [0] ∧ o.freed = [1, 2] ∧ o.ConsumedOnce 0 3 := by
  have hmem : ([sentDatagram, { sentDatagram with routeErr := 101 }, sentDatagram],
      (⟨[0], [0], [1, 2], [1], true⟩ : BurstOutcome)) ∈ sendBursts defaultSock
      [[sentDatagram, { sentDatagram with routeErr := 101 }, sentDatagram]] := by
    exact List.mem_cons_self
  refine ⟨_, hmem, rfl, rfl, (datagram_buffers_consumed_iff _ _ _ _ hmem).mpr ?_⟩
  have hout : sentDatagram.GoesOut defaultSock := ⟨rfl, rfl, rfl, nofun⟩
  rw [burstOk_cons_iff, burstOk_cons_iff]
  exact .inl ⟨hout, .inr (.inl (by decide))⟩

/-- There is no memory for the skb of the datagram: its buffer is neither in an skb nor freed. -/
theorem buffer_without_skb_leaks :
    sendBurst defaultSock 0 [{ sentDatagram with allocErr := 105 }] = ⟨[], [], [], [], false⟩ ∧
    ¬ (sendBurst defaultSock 0 [{ sentDatagram with allocErr := 105 }]).ConsumedOnce 0 1 := by
  have hlost : sendBurst defaultSock 0 [{ sentDatagram with allocErr := 105 }] =
      ⟨[], [], [], [], false⟩ := by decide
  refine ⟨hlost, fun h => ?_⟩
  have hself := h.once 0 le_rfl (by decide)
  rw [hlost] at hself
  cases hself

end IpAugenblick
