/-
# Reassembly at the host

`ip_defrag` keeps a queue for each incomplete datagram.  A queue goes away when its timer
expires, when memory is short, and when the peer has sent too many other fragments in the
meantime.  Whatever the network does to the fragments, what is delivered was sent; and what was
sent is delivered when all of it comes through in time.

Both need headers that are not used twice: with the 16 bits of `id` used up and started again,
pieces of two datagrams make one that nobody sent.  They and what holds of forged fragments too
are about skbs that do not share their `skb_shared_info` (see `Ipq.ipFragReasm`).
-/

import IpAugenblick.Ip.FragQueue

namespace IpAugenblick

open Lib

/-- The queues, by user and header, and `peer->rid` by source address. -/
structure IpFrags where
  queues : ℕ × FragKey → Option Ipq
  peerRid : BitVec 32 → BitVec 32

/-- What `ip_defrag` meets when it is called. -/
structure DefragAnswers where
  /-- `inet_frag_find` can make a queue: there is memory and the chain is short. -/
  room : Bool
  /-- `inet_getpeer_v4` finds or makes a peer. -/
  peer : Bool
  /-- `IPSKB_FRAG_COMPLETE` in the flags of the skb. -/
  fragComplete : Bool
  /-- The timer of the queue is pending. -/
  timerPending : Bool
  /-- There is memory to glue the fragments. -/
  memory : Bool
  deriving DecidableEq, Repr

/-- `ip_frag_too_far`, with the numbers of the queue and of the peer afterwards. -/
def Ipq.ipFragTooFar (q : Ipq) (peerRid maxDist : BitVec 32) : Bool × Ipq × BitVec 32 :=
  if q.hasPeer = false ∨ maxDist = 0 then (false, q, peerRid)
  else
    let start := q.rid
    let stop := peerRid + 1
    (!q.fragments.isEmpty && decide (maxDist < stop - start), { q with rid := stop }, stop)

/-- `ip_frag_queue` before it looks at the fragment: the queue starts again when it is too far
behind, and is killed when it cannot. -/
def Ipq.ready (q : Ipq) (peerRid maxDist : BitVec 32) (a : DefragAnswers) :
    Option Ipq × BitVec 32 :=
  if a.fragComplete = true then (some q, peerRid)
  else
    let (far, q, rid) := q.ipFragTooFar peerRid maxDist
    if far = true then (if a.timerPending = true then some q.ipFragReinit else none, rid)
    else (some q, rid)

namespace IpFrags

def empty : IpFrags := ⟨fun _ => none, fun _ => 0⟩

/-- The queue of a user and a header is this one, or none. -/
def put (s : IpFrags) (k : ℕ × FragKey) (q : Option Ipq) : IpFrags :=
  { s with queues := Function.update s.queues k q }

/-- The peer counts a fragment. -/
def setRid (s : IpFrags) (saddr rid : BitVec 32) : IpFrags :=
  { s with peerRid := Function.update s.peerRid saddr rid }

def ipFind (s : IpFrags) (maxDist : BitVec 32) (user : ℕ) (p : IpPacket) (a : DefragAnswers) :
    Option Ipq :=
  match s.queues (user, p.key) with
  | some q => some q
  | none =>
      if a.room = true then some (Ipq.ip4FragInit p.tos (a.peer && decide (maxDist ≠ 0))) else none

def ipDefrag (s : IpFrags) (maxDist : BitVec 32) (user : ℕ) (p : IpPacket) (a : DefragAnswers) :
    IpFrags × Option IpPacket :=
  match s.ipFind maxDist user p a with
  | none => (s, none)
  | some q =>
      match q.ready (s.peerRid p.key.saddr) maxDist a with
      | (none, rid) => ((s.setRid p.key.saddr rid).put (user, p.key) none, none)
      | (some q, rid) =>
          match q.ipFragQueue p with
          | .dropped q | .inProgress q =>
              ((s.setRid p.key.saddr rid).put (user, p.key) (some q), none)
          | .complete q =>
              ((s.setRid p.key.saddr rid).put (user, p.key) none, q.ipFragReasm p.key a.memory)

/-- `ip_local_deliver` up to the hook, and the other users of `ip_defrag` likewise: only
fragments are queued. -/
def ipLocalDeliver (s : IpFrags) (maxDist : BitVec 32) (user : ℕ) (p : IpPacket)
    (a : DefragAnswers) : IpFrags × Option IpPacket :=
  if p.ipIsFragment = true then s.ipDefrag maxDist user p a else (s, some p)

end IpFrags

inductive FragEvent
  | /-- A packet comes in. -/
    receive (user : ℕ) (p : IpPacket) (a : DefragAnswers)
  | /-- `ip_expire`, or `inet_frag_evictor` with memory short. -/
    kill (user : ℕ) (key : FragKey)
  deriving DecidableEq, Repr

namespace IpFrags

/-- One event, and what is delivered to which user. -/
def step (s : IpFrags) (maxDist : BitVec 32) : FragEvent → IpFrags × Option (ℕ × IpPacket)
  | .receive user p a =>
      let (s, out) := s.ipLocalDeliver maxDist user p a
      (s, out.map (user, ·))
  | .kill user key => (s.put (user, key) none, none)

/-- A run, and all that is delivered. -/
def run (maxDist : BitVec 32) : IpFrags → List FragEvent → IpFrags × List (ℕ × IpPacket)
  | s, [] => (s, [])
  | s, e :: es =>
      let (s, out) := s.step maxDist e
      let (s, outs) := run maxDist s es
      (s, out.toList ++ outs)

end IpFrags

/-- The packets that a user was given under a header. -/
def receivedBy (user : ℕ) (key : FragKey) (es : List FragEvent) : List IpPacket :=
  es.filterMap fun
    | .receive u p _ => if u = user ∧ p.key = key then some p else none
    | .kill _ _ => none

/-! ## The queues and what is delivered, one event at a time -/

section Slots

variable (s : IpFrags) (k : ℕ × FragKey) (q : Option Ipq) (saddr rid : BitVec 32)

@[simp]
theorem IpFrags.queues_put_self : (s.put k q).queues k = q := Function.update_self ..

theorem IpFrags.queues_put_ne {k' : ℕ × FragKey} (h : k' ≠ k) :
    (s.put k q).queues k' = s.queues k' := Function.update_of_ne h ..

@[simp]
theorem IpFrags.peerRid_put : (s.put k q).peerRid = s.peerRid := rfl

@[simp]
theorem IpFrags.queues_setRid : (s.setRid saddr rid).queues = s.queues := rfl

end Slots

/-- What `ip_defrag` does to the queue of the packet: from the queue it finds or makes, to the
queue it leaves, with what it delivers. -/
inductive DefragEffect (p : IpPacket) (a : DefragAnswers) (maxDist rid : BitVec 32) :
    Option Ipq → Option Ipq → BitVec 32 → Option IpPacket → Prop
  | /-- There is no queue, and none can be made. -/
    refused (h : a.room = false) : DefragEffect p a maxDist rid none none rid none
  | /-- The queue is killed because it cannot start again. -/
    killed {old : Option Ipq} {q : Ipq} {rid' : BitVec 32}
      (hfound : old.getD (Ipq.ip4FragInit p.tos (a.peer && decide (maxDist ≠ 0))) = q)
      (hready : q.ready rid maxDist a = (none, rid')) :
      DefragEffect p a maxDist rid old none rid' none
  | /-- The fragment is queued, or dropped, and the queue waits on. -/
    waits {old : Option Ipq} {q q' : Ipq} {rid' : BitVec 32}
      (hfound : old.getD (Ipq.ip4FragInit p.tos (a.peer && decide (maxDist ≠ 0))) = q)
      (hready : q.ready rid maxDist a = (some q', rid'))
      (hnot : (q'.ipFragQueue p).isComplete = false) :
      DefragEffect p a maxDist rid old (some (q'.ipFragQueue p).queue) rid' none
  | /-- The datagram is complete. -/
    complete {old : Option Ipq} {q q' : Ipq} {rid' : BitVec 32}
      (hfound : old.getD (Ipq.ip4FragInit p.tos (a.peer && decide (maxDist ≠ 0))) = q)
      (hready : q.ready rid maxDist a = (some q', rid'))
      (hdone : (q'.ipFragQueue p).isComplete = true) :
      DefragEffect p a maxDist rid old none rid'
        ((q'.ipFragQueue p).queue.ipFragReasm p.key a.memory)

/-- All that `ip_defrag` can do. -/
theorem IpFrags.ipDefrag_effect (s : IpFrags) (maxDist : BitVec 32) (user : ℕ) (p : IpPacket)
    (a : DefragAnswers) :
    ∃ new rid', DefragEffect p a maxDist (s.peerRid p.key.saddr) (s.queues (user, p.key)) new rid'
        (s.ipDefrag maxDist user p a).2 ∧
      (s.ipDefrag maxDist user p a).1.queues = Function.update s.queues (user, p.key) new ∧
      (s.ipDefrag maxDist user p a).1.peerRid =
        Function.update s.peerRid p.key.saddr rid' := by
  unfold IpFrags.ipDefrag
  split
  next hnone =>
    refine ⟨none, s.peerRid p.key.saddr, ?_, ?_, (Function.update_eq_self ..).symm⟩
    · unfold IpFrags.ipFind at hnone
      split at hnone
      next => cases hnone
      next hslot =>
        rw [hslot]
        refine .refused ?_
        by_contra hroom
        rw [Bool.not_eq_false] at hroom
        rw [if_pos hroom] at hnone
        cases hnone
    · unfold IpFrags.ipFind at hnone
      split at hnone
      next => cases hnone
      next hslot => rw [← hslot, Function.update_eq_self]
  next q hfind =>
    have hfound : (s.queues (user, p.key)).getD
        (Ipq.ip4FragInit p.tos (a.peer && decide (maxDist ≠ 0))) = q := by
      unfold IpFrags.ipFind at hfind
      split at hfind
      next hslot =>
        cases hfind
        rw [hslot]
        rfl
      next hslot =>
        split at hfind
        next =>
          cases hfind
          rw [hslot]
          rfl
        next => cases hfind
    split
    next rid' hready => exact ⟨none, rid', .killed hfound hready, rfl, rfl⟩
    next q' rid' hready =>
      split
      next q'' hq =>
        have h := DefragEffect.waits hfound hready (by rw [hq]; rfl)
        rw [hq] at h
        exact ⟨_, rid', h, rfl, rfl⟩
      next q'' hq =>
        have h := DefragEffect.waits hfound hready (by rw [hq]; rfl)
        rw [hq] at h
        exact ⟨_, rid', h, rfl, rfl⟩
      next q'' hq =>
        have h := DefragEffect.complete hfound hready (by rw [hq]; rfl)
        rw [hq] at h
        exact ⟨_, rid', h, rfl, rfl⟩

/-! ## Packets on the way -/

/-- A packet of a datagram on its way: as it was sent, or what `ip_fragment` of some router made of
a packet on its way.  A router need not run this stack, so its skbs may have any room. -/
inductive Travels (D : IpDatagram) : IpPacket → Prop
  | sent {p : IpPacket} (h : D.Is p) : Travels D p
  | cut {room : ℕ → ℕ} {s : IpSkb} {mtu fuel : ℕ} {env : FragmentEnv} {sent : List IpPacket}
      {e : FragmentEnd} {p : IpPacket} (h : Travels D s.packet) (hs : s.Proper)
      (hfits : s.Fits mtu) (hrun : ipFragmentIn room s mtu env fuel = some (sent, e))
      (hp : p ∈ sent) : Travels D p

/-- `tot_len` is the length of the packet. -/
def IpPacket.Measured (p : IpPacket) : Prop := p.totLen = p.hlen + p.payload.length

theorem IpPacket.measured_fragmentAt (p : IpPacket) (offset : ℕ) (more : Bool)
    (bytes : List UInt8) : (p.fragmentAt offset more bytes).Measured :=
  Nat.add_comm bytes.length p.hlen

theorem slowPath_measured {room : ℕ → ℕ} {p : IpPacket} {space fuel round offset : ℕ}
    {env : FragmentEnv} {rest : List UInt8} {sent : List IpPacket} {e : FragmentEnd}
    (hrun : slowPath room p space env fuel round offset rest = some (sent, e)) :
    ∀ q ∈ sent, q.Measured := by
  induction fuel generalizing round offset rest sent e with
  | zero => cases hrun
  | succ fuel ih =>
      rw [slowPath] at hrun
      split at hrun
      next =>
        cases hrun
        exact List.forall_mem_nil _
      next =>
        dsimp only at hrun
        split at hrun
        next =>
          cases hrun
          exact List.forall_mem_nil _
        split at hrun
        next =>
          cases hrun
          exact List.forall_mem_nil _
        split at hrun
        next =>
          obtain ⟨⟨sent', e'⟩, hrec, heq⟩ := Option.map_eq_some_iff.mp hrun
          cases heq
          exact List.forall_mem_cons.mpr ⟨p.measured_fragmentAt _ _ _, ih hrec⟩
        next =>
          cases hrun
          exact List.forall_mem_nil _

theorem fastPath_measured {p : IpPacket} {output : ℕ → Bool} {round offset : ℕ}
    {frags : List FragListSkb} {sent : List IpPacket} {e : FragmentEnd}
    (hrun : fastPath p output round offset frags = (sent, e)) : ∀ q ∈ sent, q.Measured := by
  induction frags generalizing round offset sent e with
  | nil =>
      cases hrun
      exact nofun
  | cons frag rest ih =>
      rw [fastPath] at hrun
      split at hrun
      next =>
        cases hrun
        exact List.forall_mem_cons.mpr ⟨p.measured_fragmentAt _ _ _, ih rfl⟩
      next =>
        cases hrun
        exact nofun

/-- Fragments have the right length in the header. -/
theorem ipFragmentIn_measured {room : ℕ → ℕ} {s : IpSkb} {mtu fuel : ℕ} {env : FragmentEnv}
    {sent : List IpPacket} {e : FragmentEnd}
    (hrun : ipFragmentIn room s mtu env fuel = some (sent, e)) : ∀ q ∈ sent, q.Measured := by
  unfold ipFragmentIn at hrun
  split at hrun
  next =>
    cases hrun
    exact nofun
  next =>
    dsimp only at hrun
    split at hrun
    next =>
      split at hrun
      next =>
        cases hrun
        exact List.forall_mem_cons.mpr ⟨s.packet.measured_fragmentAt _ _ _, fastPath_measured rfl⟩
      next =>
        cases hrun
        exact nofun
    next =>
      split at hrun
      next => exact slowPath_measured hrun
      next =>
        cases hrun
        exact nofun

/-- The datagram as it was sent is a piece of itself. -/
theorem IpDatagram.Is.pieceOf {D : IpDatagram} {p : IpPacket} (h : D.Is p) : PieceOf D p := by
  obtain ⟨hzero, hmore⟩ := IpPacket.whole_of_not_fragment h.whole
  have hstop : p.extent.stop = D.payload.length := by
    rw [Extent.stop, IpPacket.extent, hzero, h.payload, Nat.zero_add]
  refine ⟨h.key, h.tos, h.hlen, ?_, ?_, hstop.le, ?_, ?_⟩
  · rw [h.payload]
    exact D.nonempty
  · rw [h.payload, hzero, List.drop_zero, List.take_length]
  · rw [hmore, hstop]
    exact iff_of_false Bool.false_ne_true (lt_irrefl _)
  · rw [hmore]
    exact fun hm => absurd hm Bool.false_ne_true

/-- Whatever is on its way is a piece of the datagram, of the length that it says. -/
theorem Travels.piece {D : IpDatagram} {p : IpPacket} (h : Travels D p) :
    PieceOf D p ∧ p.Measured := by
  induction h with
  | sent h =>
      refine ⟨h.pieceOf, ?_⟩
      rw [IpPacket.Measured, h.totLen, h.hlen, h.payload]
  | cut _ hs hfits hrun hp ih =>
      exact ⟨((ipFragmentIn_pieces ih.1 hs hfits hrun).1 _ hp).1, ipFragmentIn_measured hrun _ hp⟩

/-- A piece that is no fragment is the datagram. -/
theorem PieceOf.is_of_whole {D : IpDatagram} {p : IpPacket} (h : PieceOf D p) (hlen : p.Measured)
    (hwhole : p.ipIsFragment = false) : D.Is p := by
  obtain ⟨hzero, hmore⟩ := IpPacket.whole_of_not_fragment hwhole
  have hstop : p.extent.stop = p.payload.length := by
    rw [Extent.stop, IpPacket.extent, hzero, Nat.zero_add]
  have hfull : p.payload.length = D.payload.length := by
    have hwithin := h.within
    have hnot : ¬ p.extent.stop < D.payload.length := fun hlt => by
      rw [h.more.mpr hlt] at hmore
      cases hmore
    omega
  have hpayload : p.payload = D.payload := by
    rw [h.slice, hzero, List.drop_zero, hfull, List.take_length]
  refine ⟨h.key, h.tos, h.hlen, ?_, hpayload, hwhole⟩
  rw [hlen, h.hlen, hfull]

/-! ## What one event does to the pieces in a queue -/

section Pieces

variable {D : IpDatagram} {q q' : Ipq} {since : List IpPacket} {p : IpPacket}
  {rid rid' maxDist : BitVec 32} {a : DefragAnswers}

/-- The number of the queue does not matter. -/
theorem Ipq.Assembling.setRid (h : q.Assembling D since) (rid : BitVec 32) :
    ({ q with rid := rid } : Ipq).Assembling D since :=
  ⟨⟨h.ok.laid, h.ok.meat, h.ok.within, h.ok.first⟩, h.len_le, h.last, h.ends, h.agrees, h.header,
    h.ecn, h.covers, h.waits⟩

/-- `ip_frag_too_far` changes the number of the queue. -/
theorem Ipq.ipFragTooFar_cases (q : Ipq) (peerRid maxDist : BitVec 32) :
    ∃ far mine other, q.ipFragTooFar peerRid maxDist = (far, { q with rid := mine }, other) := by
  unfold Ipq.ipFragTooFar
  split
  · exact ⟨_, q.rid, peerRid, rfl⟩
  · exact ⟨_, peerRid + 1, peerRid + 1, rfl⟩

/-- A queue is made ready as it is, or empty. -/
theorem Ipq.Assembling.ready (h : q.Assembling D since)
    (hready : q.ready rid maxDist a = (some q', rid')) :
    q'.Assembling D since ∨ q'.Assembling D [] := by
  unfold Ipq.ready at hready
  split at hready
  next =>
    cases hready
    exact .inl h
  next =>
    obtain ⟨far, mine, other, hfar⟩ := q.ipFragTooFar_cases rid maxDist
    rw [hfar] at hready
    dsimp only at hready
    split at hready
    next =>
      split at hready
      next =>
        cases hready
        exact .inr (.reinit D _)
      next => cases hready
    next =>
      cases hready
      exact .inl (h.setRid _)

/-- Without memory nothing is made of the fragments. -/
theorem Ipq.ipFragReasm_eq_none (q : Ipq) (key : FragKey) : q.ipFragReasm key false = none := by
  unfold Ipq.ipFragReasm
  split
  · rfl
  · dsimp only
    split <;> rfl

/-- What happens to the queue of a piece: it goes, it waits with the piece, or the pieces cover
the datagram and are delivered as what was sent, if at all. -/
theorem DefragEffect.pieces {old new : Option Ipq} {out : Option IpPacket}
    (h : DefragEffect p a maxDist rid old new rid' out)
    (hold : ∀ q, old = some q → q.Assembling D since) (hp : PieceOf D p) :
    (new = none ∧ out = none) ∨
    ∃ given, (given = since ∨ given = []) ∧
      ((∃ q', new = some q' ∧ q'.Assembling D (p :: given) ∧ out = none) ∨
        (new = none ∧
          (∀ i < D.payload.length, Extent.Covers ((p :: given).map IpPacket.extent) i) ∧
          ∀ dg, out = some dg → D.Is dg)) := by
  have hgiven : ∀ {q q' : Ipq} {rid' : BitVec 32},
      old.getD (Ipq.ip4FragInit p.tos (a.peer && decide (maxDist ≠ 0))) = q →
      q.ready rid maxDist a = (some q', rid') →
      ∃ given, (given = since ∨ given = []) ∧ q'.Assembling D given := by
    intro q q' rid' hfound hready
    cases old with
    | none =>
        obtain rfl : Ipq.ip4FragInit p.tos _ = q := hfound
        rw [hp.tos] at hready
        rcases (Ipq.Assembling.init D _).ready hready with h' | h'
        · exact ⟨[], .inr rfl, h'⟩
        · exact ⟨[], .inr rfl, h'⟩
    | some q₀ =>
        obtain rfl : q₀ = q := hfound
        rcases (hold q₀ rfl).ready hready with h' | h'
        · exact ⟨since, .inl rfl, h'⟩
        · exact ⟨[], .inr rfl, h'⟩
  cases h with
  | refused => exact .inl ⟨rfl, rfl⟩
  | killed => exact .inl ⟨rfl, rfl⟩
  | waits hfound hready hnot =>
      obtain ⟨given, hor, hq⟩ := hgiven hfound hready
      exact .inr ⟨given, hor, .inl ⟨_, rfl, (hq.ipFragQueue hp).2.1 hnot, rfl⟩⟩
  | complete hfound hready hdone =>
      obtain ⟨given, hor, hq⟩ := hgiven hfound hready
      obtain ⟨hiff, -, hreasm⟩ := hq.ipFragQueue hp
      refine .inr ⟨given, hor, .inr ⟨rfl, hiff.mp hdone, fun dg hdg => ?_⟩⟩
      obtain ⟨dg', heq, his⟩ := hreasm hdone
      rw [hp.key] at hdg
      cases hmemory : a.memory with
      | false =>
          rw [hmemory, Ipq.ipFragReasm_eq_none] at hdg
          cases hdg
      | true =>
          rw [hmemory, heq] at hdg
          cases hdg
          exact his

end Pieces

/-! ## Whole runs -/

/-- The packets that come in were sent. -/
def FragEvent.Genuine (sent : Set IpDatagram) : FragEvent → Prop
  | .receive _ p _ => ∃ D ∈ sent, Travels D p
  | .kill _ _ => True

/-- Every queue has pieces of the datagram that was sent under its header; `since` are the pieces
that it was given. -/
def IpFrags.Holds (sent : Set IpDatagram) (s : IpFrags) (since : ℕ × FragKey → List IpPacket) :
    Prop :=
  ∀ D ∈ sent, ∀ user q, s.queues (user, D.key) = some q → q.Assembling D (since (user, D.key))

theorem IpFrags.holds_empty (sent : Set IpDatagram) : empty.Holds sent fun _ => [] := nofun

/-- How many of the packets have the byte at `i`. -/
def timesReceived (i : ℕ) (ps : List IpPacket) : ℕ :=
  ps.countP fun p => decide (p.offset ≤ i ∧ i < p.offset + p.payload.length)

/-- How many packets a user was delivered under a header. -/
def timesDelivered (user : ℕ) (key : FragKey) (outs : List (ℕ × IpPacket)) : ℕ :=
  outs.countP fun o => decide (o.1 = user ∧ o.2.key = key)

@[simp]
theorem timesReceived_nil (i : ℕ) : timesReceived i [] = 0 := rfl

theorem timesReceived_append (i : ℕ) (ps qs : List IpPacket) :
    timesReceived i (ps ++ qs) = timesReceived i ps + timesReceived i qs := List.countP_append

theorem timesReceived_cons (i : ℕ) (p : IpPacket) (ps : List IpPacket) :
    timesReceived i (p :: ps) = timesReceived i [p] + timesReceived i ps :=
  timesReceived_append i [p] ps

/-- A byte that some packet has was received. -/
theorem timesReceived_pos {i : ℕ} {ps : List IpPacket}
    (h : Extent.Covers (ps.map IpPacket.extent) i) : 0 < timesReceived i ps := by
  obtain ⟨e, he, hhas⟩ := h
  obtain ⟨p, hp, rfl⟩ := List.mem_map.mp he
  exact List.countP_pos_iff.mpr ⟨p, hp, decide_eq_true hhas⟩

@[simp]
theorem timesDelivered_nil (user : ℕ) (key : FragKey) : timesDelivered user key [] = 0 := rfl

theorem timesDelivered_append (user : ℕ) (key : FragKey) (os os' : List (ℕ × IpPacket)) :
    timesDelivered user key (os ++ os') =
      timesDelivered user key os + timesDelivered user key os' := List.countP_append

theorem receivedBy_cons (user : ℕ) (key : FragKey) (e : FragEvent) (es : List FragEvent) :
    receivedBy user key (e :: es) = receivedBy user key [e] ++ receivedBy user key es := by
  rw [receivedBy, receivedBy, receivedBy, ← List.filterMap_append]
  rfl

theorem receivedBy_receive_self (user : ℕ) (p : IpPacket) (a : DefragAnswers) :
    receivedBy user p.key [.receive user p a] = [p] := by simp [receivedBy]

theorem receivedBy_receive_ne {user user' : ℕ} {key : FragKey} {p : IpPacket}
    (h : (user', key) ≠ (user, p.key)) (a : DefragAnswers) :
    receivedBy user' key [.receive user p a] = [] := by
  have hne : ¬ (user = user' ∧ p.key = key) := fun heq => h (by rw [heq.1, heq.2])
  simp [receivedBy, hne]

/-- One packet is delivered once at most. -/
theorem timesDelivered_le_one (user : ℕ) (key : FragKey) (out : Option (ℕ × IpPacket)) :
    timesDelivered user key out.toList ≤ 1 := by
  refine List.countP_le_length.trans ?_
  cases out <;> simp

/-- What is delivered under one header is not delivered under another. -/
theorem timesDelivered_ne {user user' : ℕ} {key key' : FragKey} {out : Option IpPacket}
    (hkey : ∀ dg, out = some dg → dg.key = key) (hne : (user', key') ≠ (user, key)) :
    timesDelivered user' key' (out.map (user, ·)).toList = 0 := by
  cases out with
  | none => rfl
  | some dg =>
      have hnot : ¬ (user = user' ∧ dg.key = key') := fun heq => by
        rw [hkey dg rfl] at heq
        exact hne (by rw [heq.1, heq.2])
      simp [timesDelivered, hnot]

section Runs

variable {sent : Set IpDatagram} {s : IpFrags} {since : ℕ × FragKey → List IpPacket}
  {maxDist : BitVec 32}

theorem IpFrags.step_receive_whole (s : IpFrags) (maxDist : BitVec 32) (user : ℕ) {p : IpPacket}
    (hwhole : p.ipIsFragment = false) (a : DefragAnswers) :
    s.step maxDist (.receive user p a) = (s, (some p).map (user, ·)) := by
  rw [IpFrags.step, IpFrags.ipLocalDeliver, if_neg (by rw [hwhole]; exact Bool.false_ne_true)]

theorem IpFrags.step_receive_fragment (s : IpFrags) (maxDist : BitVec 32) (user : ℕ) {p : IpPacket}
    (hfrag : p.ipIsFragment = true) (a : DefragAnswers) :
    s.step maxDist (.receive user p a) = ((s.ipDefrag maxDist user p a).1,
      (s.ipDefrag maxDist user p a).2.map (user, ·)) := by
  rw [IpFrags.step, IpFrags.ipLocalDeliver, if_pos hfrag]

/-- The slots of what was sent are told apart by their headers. -/
theorem slot_cases (hinj : Set.InjOn IpDatagram.key sent) {E : IpDatagram} (hE : E ∈ sent)
    {D : IpDatagram} (hD : D ∈ sent) (user' user : ℕ) :
    (user', D.key) ≠ (user, E.key) ∨ user' = user ∧ D = E := by
  by_cases heq : (user', D.key) = (user, E.key)
  · rw [Prod.mk.injEq] at heq
    exact .inr ⟨heq.1, hinj hD hE heq.2⟩
  · exact .inl heq

/-- A packet of `E` moves one slot, and the books of the other slots are kept. -/
theorem IpFrags.Holds.receive (hinj : Set.InjOn IpDatagram.key sent) (h : s.Holds sent since)
    {E : IpDatagram} (hE : E ∈ sent) {p : IpPacket} (hkey : p.key = E.key) {user : ℕ}
    {a : DefragAnswers} {s' : IpFrags} {new : Option Ipq}
    (hqueues : s'.queues = Function.update s.queues (user, E.key) new) (kept : List IpPacket)
    (hkept : ∀ q, new = some q → q.Assembling E kept) (out : Option IpPacket)
    (hout : ∀ dg, out = some dg → E.Is dg)
    (htally : ∀ i < E.payload.length, timesDelivered user E.key (out.map (user, ·)).toList +
      timesReceived i kept ≤ timesReceived i (since (user, E.key)) + timesReceived i [p]) :
    ∃ since', s'.Holds sent since' ∧ (∀ o ∈ out.map (user, ·), ∃ D ∈ sent, D.Is o.2) ∧
      ∀ D ∈ sent, ∀ user', ∀ i < D.payload.length,
        timesDelivered user' D.key (out.map (user, ·)).toList +
            timesReceived i (since' (user', D.key)) ≤
          timesReceived i (since (user', D.key)) +
            timesReceived i (receivedBy user' D.key [.receive user p a]) := by
  refine ⟨Function.update since (user, E.key) kept, ?_, ?_, ?_⟩
  · intro D hD user' q hq
    rw [hqueues] at hq
    rcases slot_cases hinj hE hD user' user with hne | ⟨rfl, rfl⟩
    · rw [Function.update_of_ne hne] at hq ⊢
      exact h D hD user' q hq
    · rw [Function.update_self] at hq ⊢
      exact hkept q hq
  · intro o ho
    obtain ⟨dg, hdg, rfl⟩ := Option.map_eq_some_iff.mp ho
    exact ⟨E, hE, hout dg hdg⟩
  · intro D hD user' i hi
    rcases slot_cases hinj hE hD user' user with hne | ⟨rfl, rfl⟩
    · rw [timesDelivered_ne (fun dg hdg => (hout dg hdg).key) hne, Function.update_of_ne hne,
        receivedBy_receive_ne (by rwa [hkey])]
      omega
    · rw [Function.update_self, ← hkey, receivedBy_receive_self, hkey]
      exact htally i hi

/-- **Step lemma.**  The queues go on holding pieces of what was sent, what is delivered was sent,
and a delivery takes up all the bytes that were received for it. -/
theorem IpFrags.Holds.step (maxDist : BitVec 32) (hinj : Set.InjOn IpDatagram.key sent)
    (h : s.Holds sent since) {e : FragEvent} (he : e.Genuine sent) :
    ∃ since', (s.step maxDist e).1.Holds sent since' ∧
      (∀ o ∈ (s.step maxDist e).2, ∃ D ∈ sent, D.Is o.2) ∧
      ∀ D ∈ sent, ∀ user, ∀ i < D.payload.length,
        timesDelivered user D.key (s.step maxDist e).2.toList +
            timesReceived i (since' (user, D.key)) ≤
          timesReceived i (since (user, D.key)) +
            timesReceived i (receivedBy user D.key [e]) := by
  cases e with
  | kill user key =>
      refine ⟨since, fun D hD user' q hq => ?_, ?_, fun D hD user' i hi => ?_⟩
      · change Function.update s.queues (user, key) none (user', D.key) = some q at hq
        rw [Function.update_apply] at hq
        split at hq
        next => cases hq
        next => exact h D hD user' q hq
      · intro o ho
        cases ho
      · change 0 + _ ≤ _ + 0
        rw [Nat.zero_add, Nat.add_zero]
  | receive user p a =>
      obtain ⟨E, hE, htravels⟩ := he
      obtain ⟨hp, hlen⟩ := htravels.piece
      cases hfrag : p.ipIsFragment with
      | false =>
          have his := hp.is_of_whole hlen hfrag
          rw [s.step_receive_whole maxDist user hfrag a]
          refine h.receive hinj hE hp.key (Function.update_eq_self (user, E.key) s.queues).symm
            (since (user, E.key)) (fun q hq => h E hE user q hq) (some p)
            (fun dg hdg => Option.some_injective _ hdg ▸ his) fun i hi => ?_
          have hone := timesDelivered_le_one user E.key ((some p).map (user, ·))
          have hpos : 0 < timesReceived i [p] := by
            refine timesReceived_pos ⟨p.extent, List.mem_cons_self, ?_⟩
            rw [Extent.Has, Extent.stop, IpPacket.extent,
              (IpPacket.whole_of_not_fragment hfrag).1, his.payload, Nat.zero_add]
            exact ⟨Nat.zero_le i, hi⟩
          omega
      | true =>
          obtain ⟨new, rid', heffect, hqueues, -⟩ := s.ipDefrag_effect maxDist user p a
          rw [s.step_receive_fragment maxDist user hfrag a]
          rw [hp.key] at heffect hqueues
          have hgiven : ∀ given, given = since (user, E.key) ∨ given = [] → ∀ i,
              timesReceived i given ≤ timesReceived i (since (user, E.key)) := by
            rintro given (rfl | rfl) i
            · exact le_rfl
            · exact Nat.zero_le _
          rcases heffect.pieces (h E hE user) hp with
            ⟨hnew, hout⟩ | ⟨given, hor, ⟨q', hnew, hq', hout⟩ | ⟨hnew, hcovers, hout⟩⟩
          · rw [hout]
            refine h.receive hinj hE hp.key hqueues [] ?_ none ?_ fun i _ => ?_
            · rw [hnew]
              intro q hq
              cases hq
            · intro dg hdg
              cases hdg
            · change 0 + 0 ≤ _
              exact Nat.zero_le _
          · rw [hout]
            refine h.receive hinj hE hp.key hqueues (p :: given) ?_ none ?_ fun i _ => ?_
            · rw [hnew]
              rintro q ⟨⟩
              exact hq'
            · intro dg hdg
              cases hdg
            · change 0 + _ ≤ _
              rw [timesReceived_cons, Nat.zero_add, Nat.add_comm]
              exact Nat.add_le_add_right (hgiven given hor i) _
          · refine h.receive hinj hE hp.key hqueues [] ?_ _ hout fun i hi => ?_
            · rw [hnew]
              intro q hq
              cases hq
            · have hone := timesDelivered_le_one user E.key
                ((s.ipDefrag maxDist user p a).2.map (user, ·))
              have hpos := timesReceived_pos (hcovers i hi)
              rw [timesReceived_cons] at hpos
              have hle := hgiven given hor i
              rw [timesReceived_nil]
              omega

/-- What a whole run keeps. -/
theorem IpFrags.Holds.run (maxDist : BitVec 32) (hinj : Set.InjOn IpDatagram.key sent)
    (h : s.Holds sent since) {es : List FragEvent} (hes : ∀ e ∈ es, e.Genuine sent) :
    ∃ since', (s.run maxDist es).1.Holds sent since' ∧
      (∀ o ∈ (s.run maxDist es).2, ∃ D ∈ sent, D.Is o.2) ∧
      ∀ D ∈ sent, ∀ user, ∀ i < D.payload.length,
        timesDelivered user D.key (s.run maxDist es).2 + timesReceived i (since' (user, D.key)) ≤
          timesReceived i (since (user, D.key)) +
            timesReceived i (receivedBy user D.key es) := by
  induction es generalizing s since with
  | nil => exact ⟨since, h, nofun, fun _ _ _ _ _ => (Nat.zero_add _).le⟩
  | cons e es ih =>
      obtain ⟨he, hes⟩ := List.forall_mem_cons.mp hes
      obtain ⟨mid, hmid, hout, htally⟩ := h.step maxDist hinj he
      obtain ⟨since', h', houts, htallies⟩ := ih hmid hes
      rw [IpFrags.run]
      refine ⟨since', h', fun o ho => ?_, fun D hD user i hi => ?_⟩
      · rcases List.mem_append.mp ho with ho | ho
        · exact hout o (Option.mem_toList.mp ho)
        · exact houts o ho
      · have h1 := htally D hD user i hi
        have h2 := htallies D hD user i hi
        rw [timesDelivered_append, receivedBy_cons, timesReceived_append]
        omega

/-- **What is delivered was sent.**  Fragments of different datagrams may come in any order,
mixed, more than once or not at all, cut to any size on the way; queues may expire or be evicted.
Still everything delivered is one of the datagrams that were sent, and no user gets a datagram
more often than each of its bytes came in.  The datagrams have different headers (`hinj`), and only
their pieces arrive (`hes`). -/
theorem IpFrags.run_delivers_sent (maxDist : BitVec 32) (hinj : Set.InjOn IpDatagram.key sent)
    {es : List FragEvent} (hes : ∀ e ∈ es, e.Genuine sent) :
    (∀ o ∈ (empty.run maxDist es).2, ∃ D ∈ sent, D.Is o.2) ∧
      ∀ D ∈ sent, ∀ user, ∀ i < D.payload.length,
        timesDelivered user D.key (empty.run maxDist es).2 ≤
          timesReceived i (receivedBy user D.key es) := by
  obtain ⟨since, -, hout, htally⟩ := (holds_empty sent).run maxDist hinj hes
  refine ⟨hout, fun D hD user i hi => ?_⟩
  have h := htally D hD user i hi
  rw [timesReceived_nil, Nat.zero_add] at h
  exact (Nat.le_add_right _ _).trans h

end Runs

/-- Memory everywhere, and a peer. -/
def plentiful : DefragAnswers := ⟨true, true, false, true, true⟩

theorem sixteenBytes_is : sixteenBytes.Is sixteenSkb.packet := ⟨rfl, rfl, rfl, rfl, rfl, rfl⟩

theorem travels_eightBytes {p : IpPacket} (hp : p ∈ [eightBytes 0 true, eightBytes 8 false]) :
    Travels sixteenBytes p :=
  .cut (.sent sixteenBytes_is) sixteenSkb_proper (.inl (by decide)) ipFragment_sixteenSkb hp

/-- The halves in the wrong order, and one of them twice. -/
def halves : List FragEvent :=
  [.receive 0 (eightBytes 8 false) plentiful, .receive 0 (eightBytes 8 false) plentiful,
    .receive 0 (eightBytes 0 true) plentiful]

theorem halves_genuine : ∀ e ∈ halves, e.Genuine {sixteenBytes} := by
  intro e he
  simp only [halves, List.mem_cons, List.not_mem_nil, or_false] at he
  rcases he with rfl | rfl | rfl
  · exact ⟨sixteenBytes, rfl, travels_eightBytes (by simp)⟩
  · exact ⟨sixteenBytes, rfl, travels_eightBytes (by simp)⟩
  · exact ⟨sixteenBytes, rfl, travels_eightBytes (by simp)⟩

theorem run_halves : (IpFrags.empty.run 64 halves).2 =
    [(0, { sixteenSkb.packet with totLen := 36 })] := by decide

theorem IpFrags.run_delivers_sent_halves :
    (∀ o ∈ (empty.run 64 halves).2, ∃ D ∈ ({sixteenBytes} : Set IpDatagram), D.Is o.2) ∧
      timesDelivered 0 sixteenBytes.key (empty.run 64 halves).2 ≤
        timesReceived 0 (receivedBy 0 sixteenBytes.key halves) := by
  have h := run_delivers_sent 64 (Set.injOn_singleton _ _) halves_genuine
  exact ⟨h.1, h.2 sixteenBytes rfl 0 0 (by decide)⟩

/-! ## What comes through in time is delivered -/

/-- The fragments that come from a source, of any datagram. -/
def countFrom (saddr : BitVec 32) (es : List FragEvent) : ℕ :=
  es.countP fun
    | .receive _ p _ => p.ipIsFragment && decide (p.key.saddr = saddr)
    | .kill _ _ => false

/-- A stretch of a run in which nothing happens to the queue of a datagram and memory is there for
its packets. -/
structure InTime (user : ℕ) (key : FragKey) (es : List FragEvent) : Prop where
  kept : .kill user key ∉ es
  answers : ∀ p a, .receive user p a ∈ es → p.key = key →
    a.room = true ∧ a.timerPending = true ∧ a.memory = true ∧ a.fragComplete = false

theorem InTime.tail {user : ℕ} {key : FragKey} {e : FragEvent} {es : List FragEvent}
    (h : InTime user key (e :: es)) : InTime user key es where
  kept hmem := h.kept (List.mem_cons_of_mem _ hmem)
  answers p a hmem := h.answers p a (List.mem_cons_of_mem _ hmem)

/-- The peer has sent `n` fragments at most since the queue was last looked at. -/
def Ipq.Near (q : Ipq) (peerRid maxDist : BitVec 32) (n : ℕ) : Prop :=
  q.hasPeer = true → maxDist ≠ 0 → (peerRid - q.rid).toNat ≤ n

section Near

variable {q q' : Ipq} {rid rid' maxDist : BitVec 32} {a : DefragAnswers} {n : ℕ}

theorem Ipq.Near.mono {m : ℕ} (h : q.Near rid maxDist n) (hle : n ≤ m) : q.Near rid maxDist m :=
  fun hpeer hmax => (h hpeer hmax).trans hle

theorem toNat_succ_sub_le (rid start : BitVec 32) :
    (rid + 1 - start).toNat ≤ (rid - start).toNat + 1 := by
  have hadd : rid + 1 - start = rid - start + 1 := by
    rw [BitVec.sub_eq_add_neg, BitVec.sub_eq_add_neg, BitVec.add_assoc, BitVec.add_comm 1,
      BitVec.add_assoc]
  rw [hadd, BitVec.toNat_add]
  exact Nat.mod_le _ _

theorem Ipq.Near.succ (h : q.Near rid maxDist n) : q.Near (rid + 1) maxDist (n + 1) :=
  fun hpeer hmax => (toNat_succ_sub_le rid q.rid).trans (Nat.add_le_add_right (h hpeer hmax) 1)

/-- A queue that was made ready was just looked at. -/
theorem Ipq.ready_near (hflags : a.fragComplete = false)
    (hready : q.ready rid maxDist a = (some q', rid')) : q'.Near rid' maxDist 0 := by
  unfold Ipq.ready at hready
  rw [if_neg (by rw [hflags]; exact Bool.false_ne_true), ipFragTooFar] at hready
  by_cases hnone : q.hasPeer = false ∨ maxDist = 0
  · rw [if_pos hnone] at hready
    cases hready
    intro hpeer hmax
    rcases hnone with hno | hzero
    · rw [hno] at hpeer
      cases hpeer
    · exact absurd hzero hmax
  · rw [if_neg hnone] at hready
    dsimp only at hready
    have hrid : q'.rid = rid' := by
      split at hready
      next =>
        split at hready
        next =>
          cases hready
          rfl
        next => cases hready
      next =>
        cases hready
        rfl
    intro _ _
    rw [hrid, BitVec.sub_self]
    exact le_rfl

/-- A queue that is near is not started again. -/
theorem Ipq.ready_of_near (hflags : a.fragComplete = false)
    (hready : q.ready rid maxDist a = (some q', rid'))
    (hn : maxDist = 0 ∨ n + 1 ≤ maxDist.toNat)
    (hnear : q.fragments = [] ∨ q.Near rid maxDist n) : ∃ r, q' = { q with rid := r } := by
  unfold Ipq.ready at hready
  rw [if_neg (by rw [hflags]; exact Bool.false_ne_true), ipFragTooFar] at hready
  by_cases hnone : q.hasPeer = false ∨ maxDist = 0
  · rw [if_pos hnone] at hready
    cases hready
    exact ⟨q.rid, rfl⟩
  · rw [if_neg hnone] at hready
    rw [not_or, Bool.not_eq_false] at hnone
    have hfar : (!q.fragments.isEmpty && decide (maxDist < rid + 1 - q.rid)) = false := by
      rcases hnear with hnil | hnear
      · rw [hnil]
        rfl
      · have hle := hnear hnone.1 hnone.2
        have hsucc := toNat_succ_sub_le rid q.rid
        have hmax := hn.resolve_left hnone.2
        rw [decide_eq_false, Bool.and_false]
        rw [BitVec.lt_def]
        omega
    dsimp only at hready
    rw [hfar, if_neg Bool.false_ne_true] at hready
    cases hready
    exact ⟨_, rfl⟩

/-- A queue that cannot be made ready was too far behind and had no timer. -/
theorem Ipq.ready_eq_none {q : Ipq} {rid rid' maxDist : BitVec 32} {a : DefragAnswers}
    (h : q.ready rid maxDist a = (none, rid')) : a.timerPending = false := by
  unfold Ipq.ready at h
  split at h
  next => cases h
  next =>
    dsimp only at h
    split at h
    next =>
      by_contra hpending
      rw [Bool.not_eq_false] at hpending
      rw [if_pos hpending] at h
      cases h
    next => cases h

/-- The peer counts one fragment at most. -/
theorem Ipq.ready_rid (q : Ipq) (rid maxDist : BitVec 32) (a : DefragAnswers) :
    (q.ready rid maxDist a).2 = rid ∨ (q.ready rid maxDist a).2 = rid + 1 := by
  unfold ready
  split
  next => exact .inl rfl
  next =>
    unfold ipFragTooFar
    by_cases hnone : q.hasPeer = false ∨ maxDist = 0
    · rw [if_pos hnone]
      exact .inl rfl
    · rw [if_neg hnone]
      dsimp only
      split <;> exact .inr rfl

theorem DefragEffect.rid_cases {p : IpPacket} {old new : Option Ipq} {out : Option IpPacket}
    (h : DefragEffect p a maxDist rid old new rid' out) : rid' = rid ∨ rid' = rid + 1 := by
  cases h with
  | refused => exact .inl rfl
  | @killed _ q _ _ hready | @waits _ q _ _ _ hready | @complete _ q _ _ _ hready =>
      have hcases := q.ready_rid rid maxDist a
      rwa [hready] at hcases

/-- Queueing a fragment leaves the peer and its number alone. -/
theorem Ipq.place_peer (q : Ipq) (p : IpPacket) (offset stop : ℕ) :
    (q.place p offset stop).queue.hasPeer = q.hasPeer ∧
      (q.place p offset stop).queue.rid = q.rid := by
  unfold place queued
  split
  · exact ⟨rfl, rfl⟩
  · dsimp only
    split
    · exact ⟨rfl, rfl⟩
    · split <;> exact ⟨rfl, rfl⟩

theorem Ipq.ipFragQueue_peer (q : Ipq) (p : IpPacket) :
    (q.ipFragQueue p).queue.hasPeer = q.hasPeer ∧ (q.ipFragQueue p).queue.rid = q.rid := by
  unfold ipFragQueue
  dsimp only
  split
  · split
    · exact ⟨rfl, rfl⟩
    · exact place_peer _ p _ _
  · split
    · split
      · exact ⟨rfl, rfl⟩
      · exact place_peer _ p _ _
    · exact place_peer q p _ _

end Near

/-- A queue has all the pieces of the datagram that arrived, and is near; there is one if anything
arrived. -/
structure IpFrags.Waiting (D : IpDatagram) (user : ℕ) (maxDist : BitVec 32) (s : IpFrags)
    (arrived : List IpPacket) (n : ℕ) : Prop where
  pieces : ∀ q, s.queues (user, D.key) = some q → ∃ since, q.Assembling D since ∧
    (arrived ≠ [] → arrived ⊆ since ∧ q.Near (s.peerRid D.key.saddr) maxDist n)
  there : arrived ≠ [] → s.queues (user, D.key) ≠ none

section Waiting

variable {D : IpDatagram} {user : ℕ} {maxDist : BitVec 32} {s : IpFrags}
  {arrived : List IpPacket} {n : ℕ}

/-- Other traffic leaves the queue alone, and the peer counts its fragments. -/
theorem IpFrags.Waiting.other (h : s.Waiting D user maxDist arrived n) {s' : IpFrags} {m : ℕ}
    (hslot : s'.queues (user, D.key) = s.queues (user, D.key))
    (hrid : s'.peerRid D.key.saddr = s.peerRid D.key.saddr ∧ n ≤ m ∨
      s'.peerRid D.key.saddr = s.peerRid D.key.saddr + 1 ∧ n + 1 ≤ m) :
    s'.Waiting D user maxDist arrived m where
  pieces q hq := by
    rw [hslot] at hq
    obtain ⟨since, hsince, hnear⟩ := h.pieces q hq
    refine ⟨since, hsince, fun hne => ⟨(hnear hne).1, ?_⟩⟩
    rcases hrid with ⟨heq, hle⟩ | ⟨heq, hle⟩
    · rw [heq]
      exact (hnear hne).2.mono hle
    · rw [heq]
      exact (hnear hne).2.succ.mono hle
  there hne := by
    rw [hslot]
    exact h.there hne

/-- A fragment of the datagram makes it complete, or is kept with those that arrived. -/
theorem DefragEffect.waiting {p : IpPacket} {a : DefragAnswers} {rid' : BitVec 32}
    {new : Option Ipq} {out : Option IpPacket}
    (heffect : DefragEffect p a maxDist (s.peerRid D.key.saddr) (s.queues (user, D.key)) new rid'
      out)
    (h : s.Waiting D user maxDist arrived n) (hp : PieceOf D p)
    (ha : a.room = true ∧ a.timerPending = true ∧ a.memory = true ∧ a.fragComplete = false)
    (hn : maxDist = 0 ∨ n + 1 ≤ maxDist.toNat) :
    (∃ dg, out = some dg ∧ D.Is dg) ∨
      ∃ q since, new = some q ∧ q.Assembling D since ∧ p :: arrived ⊆ since ∧
        q.Near rid' maxDist 0 := by
  obtain ⟨hroom, hpending, hmemory, hflags⟩ := ha
  generalize hslot : s.queues (user, D.key) = old at heffect
  have hgiven : ∀ {q q' : Ipq},
      old.getD (Ipq.ip4FragInit p.tos (a.peer && decide (maxDist ≠ 0))) = q →
      q.ready (s.peerRid D.key.saddr) maxDist a = (some q', rid') →
      ∃ given, q'.Assembling D given ∧ arrived ⊆ given := by
    intro q q' hfound hready
    by_cases hne : arrived = []
    · have hq : ∃ since, q.Assembling D since := by
        cases old with
        | none =>
            rw [Option.getD_none, hp.tos] at hfound
            exact ⟨[], hfound ▸ .init D _⟩
        | some q₀ =>
            rw [Option.getD_some] at hfound
            obtain ⟨since, hsince, -⟩ := h.pieces q₀ hslot
            exact ⟨since, hfound ▸ hsince⟩
      obtain ⟨since, hsince⟩ := hq
      rw [hne]
      exact (hsince.ready hready).elim (fun h' => ⟨since, h', List.nil_subset _⟩)
        fun h' => ⟨[], h', List.nil_subset _⟩
    · obtain ⟨q₀, hsome⟩ := Option.ne_none_iff_exists'.mp (h.there hne)
      obtain rfl := hslot.symm.trans hsome
      obtain rfl : q₀ = q := hfound
      obtain ⟨since, hsince, hnear⟩ := h.pieces q₀ hslot
      obtain ⟨hsub, hnear⟩ := hnear hne
      obtain ⟨r, rfl⟩ := Ipq.ready_of_near hflags hready hn (.inr hnear)
      exact ⟨since, hsince.setRid r, hsub⟩
  cases heffect with
  | refused hno =>
      rw [hroom] at hno
      cases hno
  | killed _ hready =>
      have hno := Ipq.ready_eq_none hready
      rw [hpending] at hno
      cases hno
  | waits hfound hready hnot =>
      obtain ⟨given, hq, hsub⟩ := hgiven hfound hready
      refine .inr ⟨_, p :: given, rfl, (hq.ipFragQueue hp).2.1 hnot,
        List.cons_subset_cons p hsub, ?_⟩
      obtain ⟨hpeer, hrid⟩ := Ipq.ipFragQueue_peer _ p
      rw [Ipq.Near, hpeer, hrid]
      exact Ipq.ready_near hflags hready
  | complete hfound hready hdone =>
      obtain ⟨given, hq, -⟩ := hgiven hfound hready
      obtain ⟨dg, heq, his⟩ := (hq.ipFragQueue hp).2.2 hdone
      rw [hmemory, hp.key]
      exact .inl ⟨dg, heq, his⟩

/-- **Step lemma.**  The datagram is delivered, or all that arrived of it waits in the queue. -/
theorem IpFrags.Waiting.step (h : s.Waiting D user maxDist arrived n) {e : FragEvent}
    (htime : InTime user D.key [e]) (hes : ∀ p ∈ receivedBy user D.key [e], Travels D p)
    (hn : maxDist = 0 ∨ n + countFrom D.key.saddr [e] ≤ maxDist.toNat) :
    (∃ dg, (s.step maxDist e).2 = some (user, dg) ∧ D.Is dg) ∨
      (s.step maxDist e).1.Waiting D user maxDist (receivedBy user D.key [e] ++ arrived)
        (n + countFrom D.key.saddr [e]) := by
  cases e with
  | kill user' key =>
      have hne : (user, D.key) ≠ (user', key) := by
        rintro heq
        cases heq
        exact htime.kept List.mem_cons_self
      exact .inr (h.other (queues_put_ne s _ _ hne) (.inl ⟨rfl, le_rfl⟩))
  | receive user' p a =>
      by_cases hkey : (user, D.key) = (user', p.key)
      · obtain ⟨rfl, hsame⟩ := Prod.mk.inj hkey
        have hself := receivedBy_receive_self user p a
        rw [← hsame] at hself
        rw [hself] at hes ⊢
        obtain ⟨hp, hlen⟩ := (hes p List.mem_cons_self).piece
        cases hfrag : p.ipIsFragment with
        | false =>
            rw [s.step_receive_whole maxDist user hfrag a]
            exact .inl ⟨p, rfl, hp.is_of_whole hlen hfrag⟩
        | true =>
            have hone : countFrom D.key.saddr [.receive user p a] = 1 := by
              simp [countFrom, hfrag, hp.key]
            obtain ⟨new, rid', heffect, hqueues, hrids⟩ := s.ipDefrag_effect maxDist user p a
            rw [s.step_receive_fragment maxDist user hfrag a]
            rw [hp.key] at heffect hqueues hrids
            rw [hone] at hn ⊢
            rcases heffect.waiting h hp (htime.answers p a List.mem_cons_self hp.key) hn with
              ⟨dg, hout, his⟩ | ⟨q, since, hnew, hq, hsub, hnear⟩
            · rw [hout]
              exact .inl ⟨dg, rfl, his⟩
            · refine .inr ⟨fun q' hq' => ⟨since, ?_⟩, fun _ => ?_⟩
              · dsimp only at hq'
                rw [hqueues, Function.update_self, hnew] at hq'
                cases hq'
                refine ⟨hq, fun _ => ⟨hsub, ?_⟩⟩
                dsimp only
                rw [hrids, Function.update_self]
                exact hnear.mono (Nat.zero_le _)
              · dsimp only
                rw [hqueues, Function.update_self, hnew]
                exact Option.some_ne_none q
      · rw [receivedBy_receive_ne hkey, List.nil_append]
        cases hfrag : p.ipIsFragment with
        | false =>
            rw [s.step_receive_whole maxDist user' hfrag a]
            exact .inr (h.other rfl (.inl ⟨rfl, Nat.le_add_right _ _⟩))
        | true =>
            obtain ⟨new, rid', heffect, hqueues, hrids⟩ := s.ipDefrag_effect maxDist user' p a
            rw [s.step_receive_fragment maxDist user' hfrag a]
            refine .inr (h.other ?_ ?_)
            · dsimp only
              rw [hqueues, Function.update_of_ne hkey]
            · dsimp only
              rw [hrids, Function.update_apply]
              split
              next hsaddr =>
                have hone : countFrom D.key.saddr [.receive user' p a] = 1 := by
                  simp [countFrom, hfrag, hsaddr]
                rw [hone, hsaddr]
                rcases heffect.rid_cases with heq | heq
                · exact .inl ⟨heq, Nat.le_succ n⟩
                · exact .inr ⟨heq, le_rfl⟩
              next => exact .inl ⟨rfl, Nat.le_add_right _ _⟩

/-- In every stretch in which its pieces come through, the datagram is delivered. -/
theorem IpFrags.Waiting.run {es : List FragEvent} (h : s.Waiting D user maxDist arrived n)
    (htime : InTime user D.key es) (hes : ∀ p ∈ receivedBy user D.key es, Travels D p)
    (hn : maxDist = 0 ∨ n + countFrom D.key.saddr es ≤ maxDist.toNat)
    (hall : ∀ i < D.payload.length,
      ∃ p, (p ∈ arrived ∨ p ∈ receivedBy user D.key es) ∧ p.extent.Has i) :
    ∃ dg, (user, dg) ∈ (s.run maxDist es).2 ∧ D.Is dg := by
  induction es generalizing s arrived n with
  | nil =>
      exfalso
      have hne : arrived ≠ [] := by
        obtain ⟨p, hmem, -⟩ := hall 0 (List.length_pos_iff.mpr D.nonempty)
        exact List.ne_nil_of_mem (hmem.resolve_right List.not_mem_nil)
      obtain ⟨q, hq⟩ := Option.ne_none_iff_exists'.mp (h.there hne)
      obtain ⟨since, hsince, hnear⟩ := h.pieces q hq
      obtain ⟨i, hi, hgap⟩ := hsince.waits
      obtain ⟨p, hmem, hhas⟩ := hall i hi
      refine hgap ((hsince.covers i).mpr ⟨p.extent, List.mem_map_of_mem ?_, hhas⟩)
      exact (hnear hne).1 (hmem.resolve_right List.not_mem_nil)
  | cons e es ih =>
      have hcons := receivedBy_cons user D.key e es
      have hcount : countFrom D.key.saddr (e :: es) =
          countFrom D.key.saddr [e] + countFrom D.key.saddr es := by
        rw [countFrom, countFrom, countFrom, ← List.countP_append]
        rfl
      have hhead : InTime user D.key [e] :=
        ⟨fun hmem => htime.kept (List.mem_singleton.mp hmem ▸ List.mem_cons_self),
          fun p a hmem => htime.answers p a (List.mem_singleton.mp hmem ▸ List.mem_cons_self)⟩
      rw [hcons] at hes
      rw [IpFrags.run]
      rcases h.step hhead (fun p hp => hes p (List.mem_append_left _ hp))
        (hn.imp_right fun hle => by omega) with ⟨dg, hout, his⟩ | hnext
      · refine ⟨dg, List.mem_append_left _ ?_, his⟩
        rw [hout]
        exact List.mem_singleton_self _
      · obtain ⟨dg, hmem, his⟩ := ih hnext htime.tail
          (fun p hp => hes p (List.mem_append_right _ hp)) (hn.imp_right fun hle => by omega)
          fun i hi => by
            obtain ⟨p, hmem, hhas⟩ := hall i hi
            rw [hcons, List.mem_append] at hmem
            refine ⟨p, ?_, hhas⟩
            rw [List.mem_append]
            tauto
        exact ⟨dg, List.mem_append_right _ hmem, his⟩

end Waiting

/-- **What comes through in time is delivered.**  After any run, also with a queue that has lost
pieces or is about to start again: in a stretch in which all bytes of a datagram come through, in
whatever pieces, order and company, it is delivered, when nothing kills its queue, memory is
there and its source sends no more than `maxDist` fragments.  Headers are not used twice, and no
fragment is forged, before the stretch or in it: a forged last fragment in the queue would have the
true one dropped. -/
theorem IpFrags.run_delivers_complete {sent : Set IpDatagram} (maxDist : BitVec 32)
    (hinj : Set.InjOn IpDatagram.key sent) (es₀ es : List FragEvent)
    (hes : ∀ e ∈ es₀ ++ es, e.Genuine sent) {D : IpDatagram} (hD : D ∈ sent) {user : ℕ}
    (htime : InTime user D.key es)
    (hnear : maxDist = 0 ∨ countFrom D.key.saddr es ≤ maxDist.toNat)
    (hall : ∀ i < D.payload.length,
      Extent.Covers ((receivedBy user D.key es).map IpPacket.extent) i) :
    ∃ dg, (user, dg) ∈ ((empty.run maxDist es₀).1.run maxDist es).2 ∧ D.Is dg := by
  obtain ⟨since, h, -⟩ := (holds_empty sent).run maxDist hinj
    fun e he => hes e (List.mem_append_left es he)
  have hwaiting : IpFrags.Waiting D user maxDist (empty.run maxDist es₀).1 [] 0 :=
    ⟨fun q hq => ⟨_, h D hD user q hq, fun hne => absurd rfl hne⟩, fun hne => absurd rfl hne⟩
  refine hwaiting.run htime (fun p hp => ?_) (by rwa [Nat.zero_add]) fun i hi => ?_
  · obtain ⟨e, he, heq⟩ := List.mem_filterMap.mp hp
    have hgenuine := hes e (List.mem_append_right es₀ he)
    cases e with
    | kill => cases heq
    | receive user' r a =>
        dsimp only at heq
        split at heq
        next hsame =>
          cases heq
          obtain ⟨E, hE, htravels⟩ := hgenuine
          rwa [hinj hD hE (hsame.2.symm.trans htravels.piece.1.key)]
        next => cases heq
  · obtain ⟨e, he, hhas⟩ := hall i hi
    obtain ⟨p, hp, rfl⟩ := List.mem_map.mp he
    exact ⟨p, .inr hp, hhas⟩

/-- One half came in before, and the other is on its way. -/
theorem IpFrags.run_delivers_complete_halves :
    ∃ dg, (0, dg) ∈ ((empty.run 64 [.receive 0 (eightBytes 8 false) plentiful]).1.run 64 halves).2 ∧
      sixteenBytes.Is dg := by
  have hfirst : FragEvent.Genuine {sixteenBytes} (.receive 0 (eightBytes 8 false) plentiful) :=
    ⟨sixteenBytes, rfl, travels_eightBytes (by simp)⟩
  refine run_delivers_complete 64 (Set.injOn_singleton _ _)
    [.receive 0 (eightBytes 8 false) plentiful] halves
    (List.forall_mem_cons.mpr ⟨hfirst, halves_genuine⟩) rfl ⟨by decide, ?_⟩ (.inr (by decide)) ?_
  · intro p a hmem _
    simp only [halves, List.mem_cons, List.not_mem_nil, or_false, FragEvent.receive.injEq] at hmem
    rcases hmem with ⟨-, -, rfl⟩ | ⟨-, -, rfl⟩ | ⟨-, -, rfl⟩ <;> exact ⟨rfl, rfl, rfl, rfl⟩
  · intro i hi
    change i < 16 at hi
    rcases Nat.lt_or_ge i 8 with hlt | hge
    · exact ⟨(eightBytes 0 true).extent, by decide, Nat.zero_le i, hlt⟩
    · exact ⟨(eightBytes 8 false).extent, by decide, hge, hi⟩

/-! ## Fragments that nobody sent -/

/-- The packet is made of what some packets have at their places, without a gap, up to where one of
them ends the datagram; the header comes from one of them. -/
structure MadeOf (ps : List IpPacket) (dg : IpPacket) : Prop where
  bytes : ∀ i x, dg.payload[i]? = some x → ∃ p ∈ ps, p.extent.At i x
  last : ∃ p ∈ ps, p.moreFragments = false ∧ p.extent.stop = dg.payload.length
  header : ∃ p ∈ ps, dg.hlen = p.hlen ∧ (dg.tos = p.tos ∨ dg.tos = p.tos ||| 3)

theorem MadeOf.mono {ps qs : List IpPacket} {dg : IpPacket} (h : MadeOf ps dg) (hsub : ps ⊆ qs) :
    MadeOf qs dg where
  bytes i x hx := by
    obtain ⟨p, hp, hat⟩ := h.bytes i x hx
    exact ⟨p, hsub hp, hat⟩
  last := by
    obtain ⟨p, hp, hlast⟩ := h.last
    exact ⟨p, hsub hp, hlast⟩
  header := by
    obtain ⟨p, hp, hheader⟩ := h.header
    exact ⟨p, hsub hp, hheader⟩

/-- A packet that is no fragment is made of itself. -/
theorem MadeOf.whole {p : IpPacket} (h : p.ipIsFragment = false) : MadeOf [p] p := by
  obtain ⟨hzero, hmore⟩ := IpPacket.whole_of_not_fragment h
  have hmem : p ∈ [p] := List.mem_singleton_self p
  refine ⟨fun i x hx => ⟨p, hmem, ?_, ?_⟩, ⟨p, hmem, hmore, ?_⟩, p, hmem, rfl, .inl rfl⟩
  · rw [IpPacket.extent, hzero]
    exact Nat.zero_le i
  · rw [IpPacket.extent, hzero]
    exact hx
  · rw [Extent.stop, IpPacket.extent, hzero, Nat.zero_add]

theorem ipFragEcnTable_cases (ecn : BitVec 8) :
    ipFragEcnTable ecn = 0 ∨ ipFragEcnTable ecn = 3 ∨ ipFragEcnTable ecn = 0xff := by
  unfold ipFragEcnTable
  split <;> simp

section FromAnywhere

variable {q q' : Ipq} {seen : List IpPacket} {rid rid' maxDist : BitVec 32} {a : DefragAnswers}
  {p : IpPacket}

/-- What `ip_frag_reasm` makes of a complete queue. -/
theorem Ipq.FromPackets.ipFragReasm (h : q.FromPackets seen) (hlast : q.lastIn = true)
    (hmeat : q.meat = q.len) {key : FragKey} {memory : Bool} {dg : IpPacket}
    (hdg : q.ipFragReasm key memory = some dg) : dg.key = key ∧ MadeOf seen dg := by
  have hlength : (Extent.join (extentsOf q.fragments)).length = q.len := by
    rw [Extent.length_join, ← h.ok.meat, hmeat]
  unfold Ipq.ipFragReasm at hdg
  split at hdg
  next => cases hdg
  next head rest hcons =>
    dsimp only at hdg
    split at hdg
    next => cases hdg
    next hvalid =>
      split at hdg
      next => cases hdg
      next =>
        split at hdg
        next => cases hdg
        next =>
          cases hdg
          refine ⟨rfl, fun i x hx => ?_, ?_, ?_⟩
          · obtain ⟨f, hf, hat⟩ := (h.ok.join_complete hmeat).mp hx
            exact h.origin f hf i x hat
          · obtain ⟨p, hp, hmore, hstop⟩ := h.last hlast
            exact ⟨p, hp, hmore, hstop.trans hlength.symm⟩
          · obtain ⟨p, hp, hhlen, htos⟩ := h.header head (by rw [hcons]; exact List.mem_cons_self)
            refine ⟨p, hp, hhlen, ?_⟩
            rcases ipFragEcnTable_cases q.ecn with hecn | hecn | hecn
            · refine .inl ?_
              dsimp only
              rw [hecn, htos]
              exact BitVec.or_zero
            · refine .inr ?_
              dsimp only
              rw [hecn, htos]
            · exact absurd hecn hvalid

theorem Ipq.fromPackets_reinit (q : Ipq) (seen : List IpPacket) :
    q.ipFragReinit.FromPackets seen := ⟨ok_reinit q, nofun, nofun, nofun⟩

theorem Ipq.fromPackets_init (tos : BitVec 8) (hasPeer : Bool) (seen : List IpPacket) :
    (ip4FragInit tos hasPeer).FromPackets seen := ⟨ok_init tos hasPeer, nofun, nofun, nofun⟩

theorem Ipq.FromPackets.ready (h : q.FromPackets seen)
    (hready : q.ready rid maxDist a = (some q', rid')) : q'.FromPackets seen := by
  unfold Ipq.ready at hready
  split at hready
  next =>
    cases hready
    exact h
  next =>
    obtain ⟨far, mine, other, hfar⟩ := q.ipFragTooFar_cases rid maxDist
    rw [hfar] at hready
    dsimp only at hready
    split at hready
    next =>
      split at hready
      next =>
        cases hready
        exact fromPackets_reinit _ seen
      next => cases hready
    next =>
      cases hready
      exact ⟨⟨h.ok.laid, h.ok.meat, h.ok.within, h.ok.first⟩, h.origin, h.header, h.last⟩

/-- Whatever comes in: the queue has it or has forgotten it, and what is delivered is made of it. -/
theorem DefragEffect.fromPackets {old new : Option Ipq} {out : Option IpPacket}
    (h : DefragEffect p a maxDist rid old new rid' out)
    (hold : ∀ q, old = some q → q.FromPackets seen) :
    (∀ q, new = some q → q.FromPackets (p :: seen)) ∧
      ∀ dg, out = some dg → dg.key = p.key ∧ MadeOf (p :: seen) dg := by
  have hgiven : ∀ {q q' : Ipq} {rid' : BitVec 32},
      old.getD (Ipq.ip4FragInit p.tos (a.peer && decide (maxDist ≠ 0))) = q →
      q.ready rid maxDist a = (some q', rid') → q'.FromPackets seen := by
    intro q q' rid' hfound hready
    cases old with
    | none =>
        obtain rfl : Ipq.ip4FragInit p.tos _ = q := hfound
        exact (Ipq.fromPackets_init ..).ready hready
    | some q₀ =>
        obtain rfl : q₀ = q := hfound
        exact (hold q₀ rfl).ready hready
  cases h with
  | refused | killed => exact ⟨nofun, by simp⟩
  | waits hfound hready hnot =>
      refine ⟨?_, by simp⟩
      rintro q ⟨⟩
      exact (hgiven hfound hready).ipFragQueue p
  | complete hfound hready hdone =>
      refine ⟨nofun, fun dg hdg => ?_⟩
      have hqueue := (hgiven hfound hready).ipFragQueue p
      generalize hresult : Ipq.ipFragQueue _ p = o at hdone hqueue hdg
      cases o with
      | dropped | inProgress => cases hdone
      | complete q₁ =>
          obtain ⟨-, hlast, hmeat⟩ := Ipq.ipFragQueue_complete hresult
          exact hqueue.ipFragReasm hlast hmeat hdg

end FromAnywhere

/-- Every queue has what its user was given under its header. -/
def IpFrags.Collects (s : IpFrags) (seen : ℕ → FragKey → List IpPacket) : Prop :=
  ∀ user key q, s.queues (user, key) = some q → q.FromPackets (seen user key)

theorem IpFrags.Collects.step {s : IpFrags} {seen : ℕ → FragKey → List IpPacket}
    (h : s.Collects seen) (maxDist : BitVec 32) (e : FragEvent) :
    (s.step maxDist e).1.Collects (fun user key => receivedBy user key [e] ++ seen user key) ∧
      ∀ o ∈ (s.step maxDist e).2,
        MadeOf (receivedBy o.1 o.2.key [e] ++ seen o.1 o.2.key) o.2 := by
  cases e with
  | kill user key =>
      refine ⟨fun user' key' q hq => ?_, nofun⟩
      change Function.update s.queues (user, key) none (user', key') = some q at hq
      rw [Function.update_apply] at hq
      split at hq
      next => cases hq
      next => exact h user' key' q hq
  | receive user p a =>
      have hself := receivedBy_receive_self user p a
      cases hfrag : p.ipIsFragment with
      | false =>
          rw [s.step_receive_whole maxDist user hfrag a]
          refine ⟨fun user' key' q hq => ?_, ?_⟩
          · exact (h user' key' q hq).mono (List.subset_append_right _ _)
          · rintro o ⟨⟩
            rw [hself]
            exact (MadeOf.whole hfrag).mono (List.subset_append_left _ _)
      | true =>
          obtain ⟨new, rid', heffect, hqueues, -⟩ := s.ipDefrag_effect maxDist user p a
          rw [s.step_receive_fragment maxDist user hfrag a]
          obtain ⟨hnew, hout⟩ := heffect.fromPackets (h user p.key)
          refine ⟨fun user' key' q hq => ?_, fun o ho => ?_⟩
          · dsimp only at hq
            rw [hqueues] at hq
            by_cases hkey : (user', key') = (user, p.key)
            · obtain ⟨rfl, rfl⟩ := Prod.mk.inj hkey
              rw [Function.update_self] at hq
              dsimp only
              rw [hself]
              exact hnew q hq
            · rw [Function.update_of_ne hkey] at hq
              exact (h user' key' q hq).mono (List.subset_append_right _ _)
          · obtain ⟨dg, hdg, rfl⟩ := Option.map_eq_some_iff.mp ho
            obtain ⟨hkey, hmade⟩ := hout dg hdg
            dsimp only
            rw [hkey, hself]
            exact hmade

/-- **Reassembly makes nothing up.**  Fragments may come from anyone and say anything: every byte
that is delivered came in at its place in a packet with the same header, to the same user, and the
length is where a last fragment ended.  Memory that nothing was received for is never delivered. -/
theorem IpFrags.run_made_of_received (maxDist : BitVec 32) (es : List FragEvent) :
    ∀ o ∈ (empty.run maxDist es).2, MadeOf (receivedBy o.1 o.2.key es) o.2 := by
  have hrun : ∀ (es : List FragEvent) (s : IpFrags) (seen : ℕ → FragKey → List IpPacket),
      s.Collects seen → ∀ o ∈ (s.run maxDist es).2,
        MadeOf (seen o.1 o.2.key ++ receivedBy o.1 o.2.key es) o.2 := by
    intro es
    induction es with
    | nil => exact fun _ _ _ => nofun
    | cons e es ih =>
        intro s seen h o ho
        obtain ⟨hnext, hout⟩ := h.step maxDist e
        rw [receivedBy_cons]
        rw [run] at ho
        rcases List.mem_append.mp ho with ho | ho
        · refine (hout o (Option.mem_toList.mp ho)).mono fun p hp => ?_
          rw [List.mem_append] at hp
          rw [List.mem_append, List.mem_append]
          tauto
        · refine (ih _ _ hnext o ho).mono fun p hp => ?_
          rw [List.mem_append, List.mem_append] at hp
          rw [List.mem_append, List.mem_append]
          tauto
  exact fun o ho => hrun es empty (fun _ _ => []) nofun o ho

theorem IpFrags.run_made_of_received_halves :
    ∃ o ∈ (empty.run 64 halves).2, MadeOf (receivedBy o.1 o.2.key halves) o.2 := by
  have hmem : (0, sixteenSkb.packet) ∈ (empty.run 64 halves).2 := by
    rw [run_halves]
    exact List.mem_singleton_self _
  exact ⟨_, hmem, run_made_of_received 64 halves _ hmem⟩

end IpAugenblick
