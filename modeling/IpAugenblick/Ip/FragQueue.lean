/-
# The queue of an incomplete datagram

`ip_frag_queue` puts a fragment where it belongs among those that have arrived.  Where it
overlaps the fragment in front of it the older bytes stay, where it overlaps fragments behind it
the newer ones replace them.  The queue counts the bytes it has; when these are as many as the
last fragment said, `ip_frag_reasm` makes them a packet.

The skbs in the queues are taken to have a `skb_shared_info` each.
-/

import IpAugenblick.Ip.Fragment
import Mathlib.Data.List.TakeWhile
import Mathlib.Tactic.IntervalCases

namespace IpAugenblick

open Lib

/-- A queued fragment: `FRAG_CB(skb)->offset` with the data, and what is read of its header. -/
structure QueuedFrag where
  extent : Extent UInt8
  hlen : ℕ
  tos : BitVec 8
  deriving DecidableEq, Repr

/-- `struct ipq`.  `hasPeer` tells whether there is a peer, with its `rid`. -/
structure Ipq where
  fragments : List QueuedFrag
  len : ℕ
  meat : ℕ
  firstIn : Bool
  lastIn : Bool
  maxSize : ℕ
  ecn : BitVec 8
  hasPeer : Bool
  rid : BitVec 32
  deriving DecidableEq, Repr

def ip4FragEcn (tos : BitVec 8) : BitVec 8 := 1 <<< (tos &&& 3).toNat

def ipFragEcnTable (ecn : BitVec 8) : BitVec 8 :=
  match ecn.toNat with
  | 12 | 10 | 14 => 3
  | 9 | 5 | 3 | 7 | 13 | 11 | 15 => 0xff
  | _ => 0

def Ipq.ip4FragInit (tos : BitVec 8) (hasPeer : Bool) : Ipq where
  fragments := []
  len := 0
  meat := 0
  firstIn := false
  lastIn := false
  maxSize := 0
  ecn := ip4FragEcn tos
  hasPeer := hasPeer
  rid := 0

/-- `ip_frag_reinit`, when it restarts the timer. -/
def Ipq.ipFragReinit (q : Ipq) : Ipq :=
  { q with fragments := [], len := 0, meat := 0, firstIn := false, lastIn := false, ecn := 0 }

/-- What `ip_frag_queue` does with a fragment. -/
inductive FragOutcome
  | /-- It is freed. -/
    dropped (q : Ipq)
  | /-- It is queued: -EINPROGRESS. -/
    inProgress (q : Ipq)
  | /-- It is queued, and `ip_frag_reasm` is called. -/
    complete (q : Ipq)
  deriving DecidableEq, Repr

def FragOutcome.queue : FragOutcome → Ipq
  | .dropped q | .inProgress q | .complete q => q

/-- Whether `ip_frag_reasm` is called. -/
def FragOutcome.isComplete : FragOutcome → Bool
  | .complete _ => true
  | .dropped _ | .inProgress _ => false

/-- The fragments in front of a new one at `offset`, and those behind.  The last fragment is
looked at first. -/
def splitAtOffset (offset : ℕ) (fragments : List QueuedFrag) : List QueuedFrag × List QueuedFrag :=
  if fragments.getLast?.all fun tail => decide (tail.extent.offset < offset) then (fragments, [])
  else fragments.span fun next => decide (next.extent.offset < offset)

/-- The bytes of a new fragment up to `stop` that the fragment `prev` reaches over. -/
def overlapWith (prev : Option QueuedFrag) (offset : ℕ) : ℕ :=
  match prev with
  | none => 0
  | some prev => prev.extent.stop - offset

/-- The loop over the fragments behind a new one that ends at `stop`: what is left of them, and
the bytes that were eaten. -/
def eatFollowing (stop : ℕ) : List QueuedFrag → List QueuedFrag × ℕ
  | [] => ([], 0)
  | next :: rest =>
      if next.extent.offset < stop then
        let i := stop - next.extent.offset
        if i < next.extent.data.length then
          ({ next with extent := next.extent.dropFront i } :: rest, i)
        else
          let (left, eaten) := eatFollowing stop rest
          (left, eaten + next.extent.data.length)
      else (next :: rest, 0)

/-- The end of `ip_frag_queue`: all of the datagram is there, or not. -/
def Ipq.queued (q : Ipq) : FragOutcome :=
  if q.firstIn ∧ q.lastIn ∧ q.meat = q.len then .complete q else .inProgress q

/-- `ip_frag_queue` from the trim on: the fragment is at `offset` and ends at `stop`. -/
def Ipq.place (q : Ipq) (p : IpPacket) (offset stop : ℕ) : FragOutcome :=
  if stop = offset then .dropped q
  else
    let data := p.payload.take (stop - offset)
    let (before, behind) := splitAtOffset offset q.fragments
    let i := overlapWith before.getLast? offset
    if 0 < i ∧ stop ≤ offset + i then .dropped q
    else
      let (behind, eaten) := eatFollowing stop behind
      let frag : QueuedFrag := ⟨⟨offset + i, data.drop i⟩, p.hlen, p.tos⟩
      let size := frag.extent.data.length + p.hlen
      Ipq.queued
        { q with
          fragments := before ++ frag :: behind
          meat := q.meat - eaten + frag.extent.data.length
          firstIn := q.firstIn || decide (offset + i = 0)
          ecn := q.ecn ||| ip4FragEcn p.tos
          maxSize := if p.fragOff &&& ipDf ≠ 0 ∧ q.maxSize < size then size else q.maxSize }

/-- `ip_frag_queue` of a queue that is not complete. -/
def Ipq.ipFragQueue (q : Ipq) (p : IpPacket) : FragOutcome :=
  let offset := p.offset
  let stop := offset + p.payload.length
  if p.moreFragments = false then
    if stop < q.len ∨ (q.lastIn = true ∧ stop ≠ q.len) then .dropped q
    else { q with lastIn := true, len := stop }.place p offset stop
  else
    let stop := stop - stop % 8
    if q.len < stop then
      if q.lastIn = true then .dropped q else { q with len := stop }.place p offset stop
    else q.place p offset stop

/-- `ip_frag_reasm`, with memory or not: the packet, or none.  `skb_clone` and `skb_morph`, which
put the packet that has come last into the place of the first, are copies of values here, so what is
delivered is right only while no two skbs share a `skb_shared_info`.  In this port they come to: the
clone takes over the pointer to it, and both skbs go back to their pool with it. -/
def Ipq.ipFragReasm (q : Ipq) (key : FragKey) (memory : Bool) : Option IpPacket :=
  match q.fragments with
  | [] => none
  | head :: _ =>
      let ecn := ipFragEcnTable q.ecn
      let len := head.hlen + q.len
      if ecn = 0xff then none
      else if memory = false then none
      else if 65535 < len then none
      else some
        { key := key
          tos := head.tos ||| ecn
          fragOff := if q.maxSize ≠ 0 then ipDf else 0
          hlen := head.hlen
          totLen := len
          payload := Extent.join (q.fragments.map QueuedFrag.extent) }

/-! ## Where a fragment is put -/

def extentsOf (fragments : List QueuedFrag) : List (Extent UInt8) :=
  fragments.map QueuedFrag.extent

@[simp]
theorem extentsOf_nil : extentsOf [] = [] := rfl

@[simp]
theorem extentsOf_cons (f : QueuedFrag) (fs : List QueuedFrag) :
    extentsOf (f :: fs) = f.extent :: extentsOf fs := rfl

@[simp]
theorem extentsOf_append (fs gs : List QueuedFrag) :
    extentsOf (fs ++ gs) = extentsOf fs ++ extentsOf gs := List.map_append

/-- Later fragments begin later. -/
theorem offset_lt_of_laid {fs gs : List QueuedFrag} {f : QueuedFrag}
    (h : Extent.Laid (extentsOf (fs ++ f :: gs))) {g : QueuedFrag} (hg : g ∈ fs) :
    g.extent.offset < f.extent.offset := by
  rw [extentsOf_append, Extent.Laid.append_iff] at h
  obtain ⟨hfs, -, hcross⟩ := h
  have hmem : g.extent ∈ extentsOf fs := List.mem_map_of_mem hg
  have hpos := hfs.pos hmem
  have hle := hcross g.extent hmem f.extent (by simp)
  rw [Extent.stop] at hle
  omega

/-- The walk finds the place: smaller offsets in front, the others behind. -/
theorem splitAtOffset_spec {offset : ℕ} {fragments before behind : List QueuedFrag}
    (hlaid : Extent.Laid (extentsOf fragments))
    (hsplit : splitAtOffset offset fragments = (before, behind)) :
    fragments = before ++ behind ∧ (∀ f ∈ before, f.extent.offset < offset) ∧
      ∀ f ∈ behind, offset ≤ f.extent.offset := by
  unfold splitAtOffset at hsplit
  split at hsplit
  next htail =>
    cases hsplit
    refine ⟨(List.append_nil _).symm, fun f hf => ?_, nofun⟩
    obtain ⟨init, tail, rfl⟩ : ∃ init tail, fragments = init ++ [tail] := by
      obtain h | ⟨init, tail, h⟩ := fragments.eq_nil_or_concat
      · subst h
        cases hf
      · exact ⟨init, tail, by simpa using h⟩
    rw [List.getLast?_concat, Option.all_some, decide_eq_true_eq] at htail
    rcases List.mem_append.mp hf with hinit | hlast
    · exact (offset_lt_of_laid hlaid hinit).trans htail
    · rwa [List.mem_singleton.mp hlast]
  next =>
    rw [List.span_eq_takeWhile_dropWhile] at hsplit
    cases hsplit
    refine ⟨(List.takeWhile_append_dropWhile).symm, fun f hf => ?_, fun f hf => ?_⟩
    · simpa using List.mem_takeWhile_imp hf
    · generalize hrest : fragments.dropWhile (fun next => decide (next.extent.offset < offset))
        = rest at hf
      cases rest with
      | nil => cases hf
      | cons first others =>
          have hfirst : offset ≤ first.extent.offset := by
            have hnot := List.head_dropWhile_not
              (fun next : QueuedFrag => decide (next.extent.offset < offset))
              (l := fragments) (by rw [hrest]; exact List.cons_ne_nil _ _)
            simp only [hrest, List.head_cons, decide_eq_false_iff_not, Nat.not_lt] at hnot
            exact hnot
          rcases List.mem_cons.mp hf with rfl | hothers
          · exact hfirst
          · have hsub : (first :: others).Sublist fragments := by
              rw [← hrest]
              exact List.dropWhile_sublist _
            have hordered := hlaid.ordered.sublist (hsub.map QueuedFrag.extent)
            have hle := (List.pairwise_cons.mp hordered).1 f.extent (List.mem_map_of_mem hothers)
            rw [Extent.stop] at hle
            omega

/-- What the loop over the fragments behind leaves: nothing in front of `stop`, everything behind
it, at its place, and the count of what was eaten. -/
structure EatenBehind (stop : ℕ) (behind left : List QueuedFrag) (eaten : ℕ) : Prop where
  laid : Extent.Laid (extentsOf left)
  start : ∀ f ∈ left, stop ≤ f.extent.offset
  covers : ∀ i, Extent.Covers (extentsOf left) i ↔ Extent.Covers (extentsOf behind) i ∧ stop ≤ i
  total : Extent.total (extentsOf left) + eaten = Extent.total (extentsOf behind)
  origin : ∀ f ∈ left, ∃ g ∈ behind, f.hlen = g.hlen ∧ f.tos = g.tos ∧
    f.extent.stop = g.extent.stop ∧ ∀ i x, f.extent.At i x → g.extent.At i x

theorem eatFollowing_spec {stop : ℕ} {behind left : List QueuedFrag} {eaten : ℕ}
    (hlaid : Extent.Laid (extentsOf behind))
    (heat : eatFollowing stop behind = (left, eaten)) : EatenBehind stop behind left eaten := by
  induction behind generalizing left eaten with
  | nil =>
      cases heat
      exact ⟨.nil, nofun, by simp, rfl, nofun⟩
  | cons next rest ih =>
      rw [extentsOf_cons] at hlaid
      have hbehind := (List.pairwise_cons.mp hlaid.ordered).1
      have hpos := hlaid.pos List.mem_cons_self
      have hrest : ∀ f ∈ rest, next.extent.stop ≤ f.extent.offset := fun f hf =>
        hbehind f.extent (List.mem_map_of_mem hf)
      rw [eatFollowing] at heat
      split at heat
      next hlt =>
        dsimp only at heat
        split at heat
        next hpart =>
          cases heat
          have hstop : (next.extent.dropFront (stop - next.extent.offset)).stop =
              next.extent.stop := Extent.stop_dropFront (Nat.le_of_lt hpart)
          have hstart : next.extent.offset + (stop - next.extent.offset) = stop := by omega
          refine ⟨?_, ?_, ?_, ?_, ?_⟩
          · refine .cons ?_ hlaid.of_cons ?_
            · rw [Extent.data_dropFront, Ne, List.drop_eq_nil_iff]
              omega
            · rw [hstop]
              exact hbehind
          · intro f hf
            rcases List.mem_cons.mp hf with rfl | hf
            · rw [Extent.offset_dropFront, hstart]
            · have hafter := hrest f hf
              rw [Extent.stop] at hafter
              omega
          · intro i
            rw [extentsOf_cons, extentsOf_cons, Extent.covers_cons, Extent.covers_cons,
              Extent.has_dropFront (Nat.le_of_lt hpart), hstart]
            have hfar : Extent.Covers (extentsOf rest) i → stop ≤ i := by
              rintro ⟨e, he, hhas⟩
              have hle := hbehind e he
              have hge := hhas.1
              rw [Extent.stop] at hle
              omega
            tauto
          · rw [extentsOf_cons, extentsOf_cons, Extent.total_cons, Extent.total_cons,
              Extent.data_dropFront, List.length_drop]
            omega
          · intro f hf
            rcases List.mem_cons.mp hf with rfl | hf
            · exact ⟨next, List.mem_cons_self, rfl, rfl, hstop, fun i x => Extent.At.of_dropFront⟩
            · exact ⟨f, List.mem_cons_of_mem _ hf, rfl, rfl, rfl, fun i x h => h⟩
        next hwhole =>
          rcases hrec : eatFollowing stop rest with ⟨left', eaten'⟩
          rw [hrec] at heat
          dsimp only at heat
          cases heat
          have h := ih hlaid.of_cons hrec
          refine ⟨h.laid, h.start, ?_, ?_, ?_⟩
          · intro i
            rw [h.covers, extentsOf_cons, Extent.covers_cons]
            have hnear : next.extent.Has i → i < stop := by
              intro hhas
              have hlt' := hhas.2
              rw [Extent.stop] at hlt'
              omega
            constructor
            · rintro ⟨hcov, hle⟩
              exact ⟨.inr hcov, hle⟩
            · rintro ⟨hcov, hle⟩
              refine ⟨hcov.resolve_left fun hhas => ?_, hle⟩
              exact absurd (hnear hhas) (Nat.not_lt.mpr hle)
          · have htotal := h.total
            rw [extentsOf_cons, Extent.total_cons]
            omega
          · intro f hf
            obtain ⟨g, hg, horigin⟩ := h.origin f hf
            exact ⟨g, List.mem_cons_of_mem _ hg, horigin⟩
      next hge =>
        cases heat
        have hle : stop ≤ next.extent.offset := Nat.not_lt.mp hge
        refine ⟨hlaid, ?_, ?_, rfl, fun f hf => ⟨f, hf, rfl, rfl, rfl, fun i x h => h⟩⟩
        · intro f hf
          rcases List.mem_cons.mp hf with rfl | hf
          · exact hle
          · have hafter := hrest f hf
            rw [Extent.stop] at hafter
            omega
        · intro i
          refine ⟨fun hcov => ⟨hcov, ?_⟩, And.left⟩
          rw [extentsOf_cons, Extent.covers_cons] at hcov
          rcases hcov with hhas | ⟨e, he, hhas⟩
          · exact hle.trans hhas.1
          · have hafter := hbehind e he
            have hge' := hhas.1
            rw [Extent.stop] at hafter
            omega

/-- The overlap with the fragment in front reaches up to all that is in front and not into what is
behind, and the bytes in it are there. -/
theorem overlapWith_spec {offset : ℕ} {before behind : List QueuedFrag}
    (hlaid : Extent.Laid (extentsOf (before ++ behind)))
    (hbefore : ∀ f ∈ before, f.extent.offset < offset)
    (hbehind : ∀ f ∈ behind, offset ≤ f.extent.offset) :
    (∀ f ∈ before, f.extent.stop ≤ offset + overlapWith before.getLast? offset) ∧
      (∀ f ∈ behind, offset + overlapWith before.getLast? offset ≤ f.extent.offset) ∧
        ∀ j, offset ≤ j → j < offset + overlapWith before.getLast? offset →
          Extent.Covers (extentsOf before) j := by
  obtain rfl | ⟨init, prev, h⟩ := before.eq_nil_or_concat
  · refine ⟨nofun, hbehind, fun j hle hlt => ?_⟩
    rw [List.getLast?_nil, overlapWith] at hlt
    omega
  · obtain rfl : before = init ++ [prev] := by simpa using h
    have hprev := hbefore prev (by simp)
    rw [List.getLast?_concat, overlapWith]
    rw [extentsOf_append, Extent.Laid.append_iff, extentsOf_append, Extent.Laid.append_iff] at hlaid
    obtain ⟨⟨-, -, hinit⟩, -, hcross⟩ := hlaid
    refine ⟨fun f hf => ?_, fun f hf => ?_, fun j hle hlt => ?_⟩
    · rcases List.mem_append.mp hf with hf | hf
      · have hle := hinit f.extent (List.mem_map_of_mem hf) prev.extent (by simp)
        omega
      · rw [List.mem_singleton.mp hf]
        omega
    · have hle := hcross prev.extent (by simp) f.extent (List.mem_map_of_mem hf)
      have hstart := hbehind f hf
      omega
    · exact ⟨prev.extent, by simp, by omega, by omega⟩

/-- Where what is queued comes from: a fragment of the queue, possibly shortened, or the packet. -/
def QueuedFrag.From (old : List QueuedFrag) (p : IpPacket) (stop : ℕ) (f : QueuedFrag) : Prop :=
  (∃ g ∈ old, f.hlen = g.hlen ∧ f.tos = g.tos ∧ f.extent.stop = g.extent.stop ∧
    ∀ i x, f.extent.At i x → g.extent.At i x) ∨
  (f.hlen = p.hlen ∧ f.tos = p.tos ∧ f.extent.stop = stop ∧
    ∀ i x, f.extent.At i x → p.extent.At i x)

/-- What holds of a queue between two fragments. -/
structure Ipq.Ok (q : Ipq) : Prop where
  laid : Extent.Laid (extentsOf q.fragments)
  meat : q.meat = Extent.total (extentsOf q.fragments)
  within : ∀ f ∈ q.fragments, f.extent.stop ≤ q.len
  first : (∃ f ∈ q.fragments, f.extent.offset = 0) → q.firstIn = true

/-- What `ip_frag_queue` does from the trim on. -/
structure Placed (q : Ipq) (p : IpPacket) (stop : ℕ) (o : FragOutcome) : Prop where
  ok : o.queue.Ok
  len : o.queue.len = q.len
  lastIn : o.queue.lastIn = q.lastIn
  origin : ∀ f ∈ o.queue.fragments, f.From q.fragments p stop
  covers : ∀ i, Extent.Covers (extentsOf o.queue.fragments) i ↔
    Extent.Covers (extentsOf q.fragments) i ∨ p.offset ≤ i ∧ i < stop
  result : o = .dropped q ∨ o.queue.ecn = q.ecn ||| ip4FragEcn p.tos ∧
    (o.isComplete = true ↔ o.queue.firstIn = true ∧ o.queue.lastIn = true ∧
      o.queue.meat = o.queue.len)

/-- Nothing happens to a queue that has all of the fragment. -/
theorem placed_dropped {q : Ipq} (hq : q.Ok) {p : IpPacket} {stop : ℕ}
    (hcovered : ∀ i, p.offset ≤ i → i < stop → Extent.Covers (extentsOf q.fragments) i) :
    Placed q p stop (.dropped q) where
  ok := hq
  len := rfl
  lastIn := rfl
  origin f hf := .inl ⟨f, hf, rfl, rfl, rfl, fun _ _ h => h⟩
  covers i := by
    refine ⟨.inl, fun h => h.elim id fun h => hcovered i h.1 h.2⟩
  result := .inl rfl

/-- A fragment is queued, and the datagram is complete when the counters say so. -/
theorem placed_queued {q q' : Ipq} {p : IpPacket} {stop : ℕ} (hok : q'.Ok) (hlen : q'.len = q.len)
    (hlast : q'.lastIn = q.lastIn) (horigin : ∀ f ∈ q'.fragments, f.From q.fragments p stop)
    (hcovers : ∀ i, Extent.Covers (extentsOf q'.fragments) i ↔
      Extent.Covers (extentsOf q.fragments) i ∨ p.offset ≤ i ∧ i < stop)
    (hecn : q'.ecn = q.ecn ||| ip4FragEcn p.tos) :
    Placed q p stop q'.queued := by
  unfold Ipq.queued
  split
  next hdone =>
    exact ⟨hok, hlen, hlast, horigin, hcovers, .inr ⟨hecn, iff_of_true rfl hdone⟩⟩
  next hnot =>
    exact ⟨hok, hlen, hlast, horigin, hcovers, .inr ⟨hecn, iff_of_false Bool.false_ne_true hnot⟩⟩

theorem Ipq.place_spec {q : Ipq} (hq : q.Ok) (p : IpPacket) {stop : ℕ} (hstop : stop ≤ q.len)
    (hle : p.offset ≤ stop) (hend : stop ≤ p.extent.stop) :
    Placed q p stop (q.place p p.offset stop) := by
  unfold place
  split
  next heq =>
    exact placed_dropped hq fun i hi hlt => by omega
  next hne =>
    rcases hsplit : splitAtOffset p.offset q.fragments with ⟨before, behind⟩
    obtain ⟨hfragments, hbefore, hbehind⟩ := splitAtOffset_spec hq.laid hsplit
    have hlaid := hq.laid
    rw [hfragments] at hlaid
    obtain ⟨hfront, hback, hoverlap⟩ := overlapWith_spec hlaid hbefore hbehind
    dsimp only
    generalize overlapWith before.getLast? p.offset = i at hfront hback hoverlap ⊢
    split
    next hover =>
      refine placed_dropped hq fun j hj hlt => ?_
      rw [hfragments, extentsOf_append, Extent.covers_append]
      exact .inl (hoverlap j hj (by omega))
    next hnew =>
      rcases heat : eatFollowing stop behind with ⟨left, eaten⟩
      rw [extentsOf_append, Extent.Laid.append_iff] at hlaid
      obtain ⟨hlaidBefore, hlaidBehind, hcross⟩ := hlaid
      have hleft := eatFollowing_spec hlaidBehind heat
      have hshort : p.offset + i < stop := by omega
      have hroom : stop - p.offset ≤ p.payload.length := by
        rw [Extent.stop, IpPacket.extent] at hend
        dsimp only at hend
        omega
      have hlen : ((p.payload.take (stop - p.offset)).drop i).length = stop - (p.offset + i) := by
        rw [List.length_drop, List.length_take, Nat.min_eq_left hroom]
        omega
      have hfragStop : (⟨p.offset + i, (p.payload.take (stop - p.offset)).drop i⟩ :
          Extent UInt8).stop = stop := by
        rw [Extent.stop]
        dsimp only
        omega
      have hat : ∀ j x, ((p.extent.takeFront (stop - p.offset)).dropFront i).At j x →
          p.extent.At j x := fun j x h => h.of_dropFront.of_takeFront
      have hnewLaid : Extent.Laid (extentsOf (before ++ ⟨⟨p.offset + i,
          (p.payload.take (stop - p.offset)).drop i⟩, p.hlen, p.tos⟩ :: left)) := by
        rw [extentsOf_append, extentsOf_cons]
        refine hlaidBefore.append (.cons ?_ hleft.laid ?_) ?_
        · refine List.ne_nil_of_length_pos ?_
          dsimp only
          omega
        · rw [hfragStop]
          exact List.forall_mem_map.mpr hleft.start
        · refine List.forall_mem_map.mpr fun f hf => List.forall_mem_cons.mpr ⟨hfront f hf, ?_⟩
          refine List.forall_mem_map.mpr fun g hg => ?_
          have h1 := hfront f hf
          have h2 := hleft.start g hg
          omega
      have htotal := hleft.total
      have hmeat := hq.meat
      rw [hfragments, extentsOf_append, Extent.total_append] at hmeat
      have hcovers : ∀ j, Extent.Covers (extentsOf (before ++ ⟨⟨p.offset + i,
          (p.payload.take (stop - p.offset)).drop i⟩, p.hlen, p.tos⟩ :: left)) j ↔
          Extent.Covers (extentsOf q.fragments) j ∨ p.offset ≤ j ∧ j < stop := by
        intro j
        have hnear : Extent.Covers (extentsOf behind) j → p.offset ≤ j := by
          rintro ⟨e, he, hhas⟩
          obtain ⟨f, hf, rfl⟩ := List.mem_map.mp he
          exact (hbehind f hf).trans hhas.1
        have hpart := hoverlap j
        rw [hfragments, extentsOf_append, extentsOf_append, extentsOf_cons, Extent.covers_append,
          Extent.covers_append, Extent.covers_cons, hleft.covers, Extent.Has, hfragStop]
        dsimp only
        constructor
        · rintro (h | ⟨h1, h2⟩ | ⟨h, -⟩)
          · exact .inl (.inl h)
          · exact .inr ⟨by omega, h2⟩
          · exact .inl (.inr h)
        · rintro ((h | h) | ⟨h1, h2⟩)
          · exact .inl h
          · rcases Nat.lt_or_ge j stop with hlt | hge
            · rcases Nat.lt_or_ge j (p.offset + i) with hin | hout
              · exact .inl (hpart (hnear h) hin)
              · exact .inr (.inl ⟨hout, hlt⟩)
            · exact .inr (.inr ⟨h, hge⟩)
          · rcases Nat.lt_or_ge j (p.offset + i) with hin | hout
            · exact .inl (hpart h1 hin)
            · exact .inr (.inl ⟨hout, h2⟩)
      have horigin : ∀ f ∈ before ++ (⟨⟨p.offset + i, (p.payload.take (stop - p.offset)).drop i⟩,
          p.hlen, p.tos⟩ : QueuedFrag) :: left, f.From q.fragments p stop := by
        intro f hf
        rw [hfragments]
        rcases List.mem_append.mp hf with hf | hf
        · exact .inl ⟨f, List.mem_append_left _ hf, rfl, rfl, rfl, fun _ _ h => h⟩
        · rcases List.mem_cons.mp hf with rfl | hf
          · exact .inr ⟨rfl, rfl, hfragStop, hat⟩
          · obtain ⟨g, hg, horigin⟩ := hleft.origin f hf
            exact .inl ⟨g, List.mem_append_right _ hg, horigin⟩
      have hwithin : ∀ f ∈ before ++ (⟨⟨p.offset + i, (p.payload.take (stop - p.offset)).drop i⟩,
          p.hlen, p.tos⟩ : QueuedFrag) :: left, f.extent.stop ≤ q.len := by
        intro f hf
        rcases horigin f hf with ⟨g, hg, -, -, heq, -⟩ | ⟨-, -, heq, -⟩
        · rw [heq]
          exact hq.within g hg
        · rw [heq]
          exact hstop
      have hfirst : (∃ f ∈ before ++ (⟨⟨p.offset + i, (p.payload.take (stop - p.offset)).drop i⟩,
          p.hlen, p.tos⟩ : QueuedFrag) :: left, f.extent.offset = 0) →
          (q.firstIn || decide (p.offset + i = 0)) = true := by
        rintro ⟨f, hf, hzero⟩
        rw [Bool.or_eq_true, decide_eq_true_eq]
        rcases List.mem_append.mp hf with hf | hf
        · refine .inl (hq.first ⟨f, ?_, hzero⟩)
          rw [hfragments]
          exact List.mem_append_left _ hf
        · rcases List.mem_cons.mp hf with rfl | hf
          · exact .inr hzero
          · have hge := hleft.start f hf
            omega
      apply placed_queued
      case hok =>
        refine ⟨hnewLaid, ?_, hwithin, hfirst⟩
        rw [extentsOf_append, extentsOf_cons, Extent.total_append, Extent.total_cons]
        dsimp only
        omega
      case hlen => rfl
      case hlast => rfl
      case horigin => exact horigin
      case hcovers => exact hcovers
      case hecn => rfl

/-! ## Fragments from anywhere -/

/-- A new queue. -/
theorem Ipq.ok_init (tos : BitVec 8) (hasPeer : Bool) : (ip4FragInit tos hasPeer).Ok where
  laid := .nil
  meat := rfl
  within := nofun
  first := nofun

/-- A queue that was emptied. -/
theorem Ipq.ok_reinit (q : Ipq) : q.ipFragReinit.Ok where
  laid := .nil
  meat := rfl
  within := nofun
  first := nofun

theorem Ipq.Ok.setLen {q : Ipq} (h : q.Ok) {stop : ℕ} (hle : q.len ≤ stop) (last : Bool) :
    ({ q with lastIn := last, len := stop } : Ipq).Ok where
  laid := h.laid
  meat := h.meat
  within f hf := (h.within f hf).trans hle
  first := h.first

/-- What is queued arrived at its place, and the length is where a last fragment ended. -/
structure Ipq.FromPackets (q : Ipq) (seen : List IpPacket) : Prop where
  ok : q.Ok
  origin : ∀ f ∈ q.fragments, ∀ i x, f.extent.At i x → ∃ p ∈ seen, p.extent.At i x
  header : ∀ f ∈ q.fragments, ∃ p ∈ seen, f.hlen = p.hlen ∧ f.tos = p.tos
  last : q.lastIn = true → ∃ p ∈ seen, p.moreFragments = false ∧ p.extent.stop = q.len

/-- More may have arrived. -/
theorem Ipq.FromPackets.mono {q : Ipq} {seen more : List IpPacket} (h : q.FromPackets seen)
    (hsub : seen ⊆ more) : q.FromPackets more where
  ok := h.ok
  origin f hf i x hat := by
    obtain ⟨p, hp, hpat⟩ := h.origin f hf i x hat
    exact ⟨p, hsub hp, hpat⟩
  header f hf := by
    obtain ⟨p, hp, hpeq⟩ := h.header f hf
    exact ⟨p, hsub hp, hpeq⟩
  last hlast := by
    obtain ⟨p, hp, hpeq⟩ := h.last hlast
    exact ⟨p, hsub hp, hpeq⟩

theorem Placed.fromPackets {q : Ipq} {p : IpPacket} {stop : ℕ} {o : FragOutcome}
    (h : Placed q p stop o) {seen : List IpPacket} (hq : q.FromPackets seen) (hp : p ∈ seen) :
    o.queue.FromPackets seen where
  ok := h.ok
  origin f hf i x hat := by
    rcases h.origin f hf with ⟨g, hg, -, -, -, hsub⟩ | ⟨-, -, -, hsub⟩
    · exact hq.origin g hg i x (hsub i x hat)
    · exact ⟨p, hp, hsub i x hat⟩
  header f hf := by
    rcases h.origin f hf with ⟨g, hg, hhlen, htos, -⟩ | ⟨hhlen, htos, -⟩
    · obtain ⟨r, hr, h1, h2⟩ := hq.header g hg
      exact ⟨r, hr, hhlen.trans h1, htos.trans h2⟩
    · exact ⟨p, hp, hhlen, htos⟩
  last hlast := by
    rw [h.lastIn] at hlast
    rw [h.len]
    exact hq.last hlast

/-- `ip_frag_queue` on whatever arrives. -/
theorem Ipq.FromPackets.ipFragQueue {q : Ipq} {seen : List IpPacket} (hq : q.FromPackets seen)
    (p : IpPacket) : (q.ipFragQueue p).queue.FromPackets (p :: seen) := by
  have hmore := hq.mono (List.subset_cons_self p seen)
  have hp : p ∈ p :: seen := List.mem_cons_self
  have hend : p.offset + p.payload.length = p.extent.stop := rfl
  have hoffset : p.offset % 8 = 0 := by
    rw [p.offset_eq]
    exact Nat.mul_mod_left _ _
  unfold Ipq.ipFragQueue
  dsimp only
  rw [hend]
  split
  next hlast =>
    split
    next => exact hmore
    next hfits =>
      rw [not_or, Nat.not_lt] at hfits
      have hset : ({ q with lastIn := true, len := p.extent.stop } : Ipq).FromPackets
          (p :: seen) :=
        ⟨hq.ok.setLen hfits.1 true, hmore.origin, hmore.header, fun _ => ⟨p, hp, hlast, rfl⟩⟩
      exact (Ipq.place_spec hset.ok p le_rfl (Nat.le_add_right _ _) le_rfl).fromPackets hset hp
  next =>
    have hle : p.offset ≤ p.extent.stop - p.extent.stop % 8 := by omega
    split
    next hlt =>
      split
      next => exact hmore
      next hopen =>
        have hset : ({ q with len := p.extent.stop - p.extent.stop % 8 } : Ipq).FromPackets
            (p :: seen) :=
          ⟨hq.ok.setLen (Nat.le_of_lt hlt) q.lastIn, hmore.origin, hmore.header,
            fun h => absurd h hopen⟩
        exact (Ipq.place_spec hset.ok p le_rfl hle (Nat.sub_le _ _)).fromPackets hset hp
    next hge =>
      exact (Ipq.place_spec hmore.ok p (Nat.not_lt.mp hge) hle (Nat.sub_le _ _)).fromPackets
        hmore hp

/-- The counters of a complete queue. -/
theorem Ipq.queued_complete {q q' : Ipq} (h : q.queued = .complete q') :
    q'.firstIn = true ∧ q'.lastIn = true ∧ q'.meat = q'.len := by
  unfold queued at h
  split at h
  next hdone =>
    cases h
    exact hdone
  next => cases h

theorem Ipq.place_complete {q q' : Ipq} {p : IpPacket} {offset stop : ℕ}
    (h : q.place p offset stop = .complete q') :
    q'.firstIn = true ∧ q'.lastIn = true ∧ q'.meat = q'.len := by
  unfold place at h
  split at h
  · cases h
  · dsimp only at h
    split at h
    · cases h
    · exact queued_complete h

theorem Ipq.ipFragQueue_complete {q q' : Ipq} {p : IpPacket}
    (h : q.ipFragQueue p = .complete q') :
    q'.firstIn = true ∧ q'.lastIn = true ∧ q'.meat = q'.len := by
  unfold ipFragQueue at h
  dsimp only at h
  split at h
  · split at h
    · cases h
    · exact place_complete h
  · split at h
    · split at h
      · cases h
      · exact place_complete h
    · exact place_complete h

/-- The data of a complete queue, position by position. -/
theorem Ipq.Ok.join_complete {q : Ipq} (h : q.Ok) (hmeat : q.meat = q.len) {i : ℕ} {x : UInt8} :
    (Extent.join (extentsOf q.fragments))[i]? = some x ↔
      ∃ f ∈ q.fragments, f.extent.At i x := by
  have htotal : Extent.total (extentsOf q.fragments) = q.len - 0 := by
    rw [← h.meat, hmeat, Nat.sub_zero]
  have hjoin := h.laid.join_of_total (fun _ _ => Nat.zero_le _)
    (List.forall_mem_map.mpr h.within) htotal (Nat.zero_le i) (x := x)
  rw [Nat.sub_zero] at hjoin
  rw [hjoin]
  simp [extentsOf]

/-! ## The fragments of one datagram -/

/-- Fragments that all have the same congestion bits are accepted. -/
theorem ipFragEcnTable_single (tos : BitVec 8) : ipFragEcnTable (ip4FragEcn tos) = 0 := by
  have hlt : (tos &&& 3).toNat < 4 := by
    rw [BitVec.toNat_and]
    exact Nat.lt_of_le_of_lt Nat.and_le_right (by decide)
  unfold ip4FragEcn
  generalize (tos &&& 3).toNat = n at hlt
  interval_cases n <;> rfl

/-- The packet is the datagram as it was sent. -/
structure IpDatagram.Is (D : IpDatagram) (p : IpPacket) : Prop where
  key : p.key = D.key
  tos : p.tos = D.tos
  hlen : p.hlen = D.hlen
  totLen : p.totLen = D.hlen + D.payload.length
  payload : p.payload = D.payload
  whole : p.ipIsFragment = false

/-- A piece has the bytes of the datagram. -/
theorem PieceOf.at {D : IpDatagram} {p : IpPacket} (h : PieceOf D p) {i : ℕ} {x : UInt8}
    (hat : p.extent.At i x) : D.payload[i]? = some x := by
  obtain ⟨hle, hx⟩ := hat
  have hlt := (List.getElem?_eq_some_iff.mp hx).1
  change p.offset ≤ i at hle
  change i - p.offset < p.payload.length at hlt
  change p.payload[i - p.offset]? = some x at hx
  rw [h.slice, List.getElem?_take_of_lt hlt, List.getElem?_drop] at hx
  rwa [Nat.add_sub_cancel' hle] at hx

/-- A queue that was given the pieces `since`, and still waits for some. -/
structure Ipq.Assembling (D : IpDatagram) (q : Ipq) (since : List IpPacket) : Prop where
  ok : q.Ok
  len_le : q.len ≤ D.payload.length
  last : q.lastIn = true → q.len = D.payload.length
  ends : ∀ f ∈ q.fragments, f.extent.stop = D.payload.length → q.lastIn = true
  agrees : ∀ f ∈ q.fragments, ∀ i x, f.extent.At i x → D.payload[i]? = some x
  header : ∀ f ∈ q.fragments, f.hlen = D.hlen ∧ f.tos = D.tos
  ecn : q.fragments = [] ∧ q.ecn = 0 ∨ q.ecn = ip4FragEcn D.tos
  covers : ∀ i, Extent.Covers (extentsOf q.fragments) i ↔
    Extent.Covers (since.map IpPacket.extent) i
  waits : ∃ i, i < D.payload.length ∧ ¬ Extent.Covers (extentsOf q.fragments) i

theorem Ipq.Assembling.init (D : IpDatagram) (hasPeer : Bool) :
    (ip4FragInit D.tos hasPeer).Assembling D [] where
  ok := ok_init D.tos hasPeer
  len_le := Nat.zero_le _
  last := nofun
  ends := nofun
  agrees := nofun
  header := nofun
  ecn := .inr rfl
  covers _ := Iff.rfl
  waits := ⟨0, List.length_pos_iff.mpr D.nonempty, Extent.covers_nil 0⟩

theorem Ipq.Assembling.reinit (D : IpDatagram) (q : Ipq) : q.ipFragReinit.Assembling D [] where
  ok := ok_reinit q
  len_le := Nat.zero_le _
  last := nofun
  ends := nofun
  agrees := nofun
  header := nofun
  ecn := .inl ⟨rfl, rfl⟩
  covers _ := Iff.rfl
  waits := ⟨0, List.length_pos_iff.mpr D.nonempty, Extent.covers_nil 0⟩

/-- A piece is never refused for its length: the queue learns the length and puts it in place. -/
theorem Ipq.Assembling.place {D : IpDatagram} {q : Ipq} {since : List IpPacket}
    (h : q.Assembling D since) {p : IpPacket} (hp : PieceOf D p) :
    ∃ q₀ : Ipq, q.ipFragQueue p = q₀.place p p.offset p.extent.stop ∧ q₀.Ok ∧
      q₀.fragments = q.fragments ∧ q₀.ecn = q.ecn ∧ p.extent.stop ≤ q₀.len ∧
        q₀.len ≤ D.payload.length ∧ (q₀.lastIn = true → q₀.len = D.payload.length) ∧
          (q.lastIn = true ∨ p.extent.stop = D.payload.length → q₀.lastIn = true) := by
  have hwithin := hp.within
  have hlen := h.len_le
  have hend : p.offset + p.payload.length = p.extent.stop := rfl
  unfold Ipq.ipFragQueue
  dsimp only
  rw [hend]
  cases hmore : p.moreFragments with
  | false =>
      have hstop : p.extent.stop = D.payload.length := by
        have hnot : ¬ p.extent.stop < D.payload.length := fun hlt => by
          rw [hp.more.mpr hlt] at hmore
          cases hmore
        omega
      have hfits : ¬ (p.extent.stop < q.len ∨ q.lastIn = true ∧ p.extent.stop ≠ q.len) := by
        rintro (hlt | ⟨hlast, hne⟩)
        · omega
        · exact hne (hstop.trans (h.last hlast).symm)
      rw [if_pos rfl, if_neg hfits]
      exact ⟨_, rfl, h.ok.setLen (by omega) true, rfl, rfl, le_rfl, hwithin, fun _ => hstop,
        fun _ => rfl⟩
  | true =>
      have hlt := hp.more.mp hmore
      have haligned : p.extent.stop - p.extent.stop % 8 = p.extent.stop := by
        have h8 := hp.aligned hmore
        have hoffset := hp.restOf.start
        omega
      rw [if_neg Bool.false_ne_true.symm, haligned]
      split
      next hshort =>
        have hopen : ¬ q.lastIn = true := fun hlast => by
          have hfull := h.last hlast
          omega
        rw [if_neg hopen]
        exact ⟨_, rfl, h.ok.setLen (Nat.le_of_lt hshort) q.lastIn, rfl, rfl, le_rfl, hwithin,
          fun hlast => absurd hlast hopen, fun hor => hor.elim id fun heq => by omega⟩
      next hlong =>
        exact ⟨q, rfl, h.ok, rfl, rfl, Nat.not_lt.mp hlong, hlen, h.last,
          fun hor => hor.elim id fun heq => by omega⟩

/-- **Step lemma.**  A piece completes the datagram exactly when the pieces cover it then, and
otherwise the queue goes on waiting. -/
theorem Ipq.Assembling.ipFragQueue {D : IpDatagram} {q : Ipq} {since : List IpPacket}
    (h : q.Assembling D since) {p : IpPacket} (hp : PieceOf D p) :
    ((q.ipFragQueue p).isComplete = true ↔
      ∀ i < D.payload.length, Extent.Covers ((p :: since).map IpPacket.extent) i) ∧
    ((q.ipFragQueue p).isComplete = false → (q.ipFragQueue p).queue.Assembling D (p :: since)) ∧
    ((q.ipFragQueue p).isComplete = true →
      ∃ dg, (q.ipFragQueue p).queue.ipFragReasm D.key true = some dg ∧ D.Is dg) := by
  obtain ⟨q₀, heq, hok₀, hfragments, hecn₀, hstop, hlen, hlast, hends⟩ := h.place hp
  have hplaced := Ipq.place_spec hok₀ p hstop (Nat.le_add_right _ _) le_rfl
  rw [heq]
  generalize q₀.place p p.offset p.extent.stop = o at hplaced
  have hok := hplaced.ok
  have hlenO : o.queue.len ≤ D.payload.length := hplaced.len ▸ hlen
  have hlastO : o.queue.lastIn = true → o.queue.len = D.payload.length := by
    rw [hplaced.lastIn, hplaced.len]
    exact hlast
  have hcovers : ∀ i, Extent.Covers (extentsOf o.queue.fragments) i ↔
      Extent.Covers ((p :: since).map IpPacket.extent) i := by
    intro i
    rw [hplaced.covers, hfragments, h.covers, List.map_cons, Extent.covers_cons, or_comm]
    rfl
  have hagrees : ∀ f ∈ o.queue.fragments, ∀ i x, f.extent.At i x → D.payload[i]? = some x := by
    intro f hf i x hat
    rcases hplaced.origin f hf with ⟨g, hg, -, -, -, hsub⟩ | ⟨-, -, -, hsub⟩
    · rw [hfragments] at hg
      exact h.agrees g hg i x (hsub i x hat)
    · exact hp.at (hsub i x hat)
  have hheader : ∀ f ∈ o.queue.fragments, f.hlen = D.hlen ∧ f.tos = D.tos := by
    intro f hf
    rcases hplaced.origin f hf with ⟨g, hg, hhlen, htos, -⟩ | ⟨hhlen, htos, -⟩
    · rw [hfragments] at hg
      exact ⟨hhlen.trans (h.header g hg).1, htos.trans (h.header g hg).2⟩
    · exact ⟨hhlen.trans hp.hlen, htos.trans hp.tos⟩
  have hendsO : ∀ f ∈ o.queue.fragments, f.extent.stop = D.payload.length →
      o.queue.lastIn = true := by
    intro f hf hfull
    rw [hplaced.lastIn]
    rcases hplaced.origin f hf with ⟨g, hg, -, -, hstops, -⟩ | ⟨-, -, hstops, -⟩
    · rw [hfragments] at hg
      exact hends (.inl (h.ends g hg (hstops ▸ hfull)))
    · exact hends (.inr (hstops ▸ hfull))
  have hecn : o.queue.fragments = [] ∧ o.queue.ecn = 0 ∨ o.queue.ecn = ip4FragEcn D.tos := by
    rcases hplaced.result with hdropped | ⟨hecn, -⟩
    · rw [hdropped]
      change q₀.fragments = [] ∧ q₀.ecn = 0 ∨ q₀.ecn = ip4FragEcn D.tos
      rw [hfragments, hecn₀]
      exact h.ecn
    · rw [hecn, hecn₀, hp.tos]
      rcases h.ecn with ⟨-, hzero⟩ | hset
      · rw [hzero]
        exact .inr BitVec.zero_or
      · rw [hset, BitVec.or_self]
        exact .inr rfl
  have hcomplete : o.isComplete = true ↔
      ∀ i < D.payload.length, Extent.Covers (extentsOf o.queue.fragments) i := by
    rcases hplaced.result with hdropped | ⟨-, hiff⟩
    · obtain ⟨i, hi, hgap⟩ := h.waits
      refine iff_of_false (by rw [hdropped]; exact Bool.false_ne_true) fun hall => hgap ?_
      have hcov := hall i hi
      rw [hdropped] at hcov
      rwa [← hfragments]
    · rw [hiff]
      constructor
      · rintro ⟨-, hl, hmeat⟩ i hi
        rw [← hlastO hl] at hi
        refine hok.laid.covers_of_total (fun _ _ => Nat.zero_le _)
          (List.forall_mem_map.mpr hok.within) ?_ (Nat.zero_le i) hi
        rw [← hok.meat, hmeat, Nat.sub_zero]
      · intro hall
        have hpos : 0 < D.payload.length := List.length_pos_iff.mpr D.nonempty
        have hfirst : o.queue.firstIn = true := by
          obtain ⟨e, he, hhas⟩ := hall 0 hpos
          obtain ⟨f, hf, rfl⟩ := List.mem_map.mp he
          exact hok.first ⟨f, hf, Nat.le_zero.mp hhas.1⟩
        have hl : o.queue.lastIn = true := by
          obtain ⟨e, he, hhas⟩ := hall (D.payload.length - 1) (by omega)
          obtain ⟨f, hf, rfl⟩ := List.mem_map.mp he
          have hle := (hok.within f hf).trans hlenO
          have hlt := hhas.2
          exact hendsO f hf (by omega)
        refine ⟨hfirst, hl, ?_⟩
        rw [hok.meat, hlastO hl]
        exact hok.laid.total_of_covers (Nat.zero_le _) (fun _ _ => Nat.zero_le _)
          (fun e he => by
            obtain ⟨f, hf, rfl⟩ := List.mem_map.mp he
            exact (hok.within f hf).trans hlenO)
          fun i _ hi => hall i hi
  refine ⟨?_, ?_, ?_⟩
  · rw [hcomplete]
    exact forall_congr' fun i => imp_congr_right fun _ => hcovers i
  · intro hnot
    refine ⟨hok, hlenO, hlastO, hendsO, hagrees, hheader, hecn, hcovers, ?_⟩
    by_contra hfull
    refine absurd (hcomplete.mpr fun i hi => ?_) (by rw [hnot]; exact Bool.false_ne_true)
    by_contra hgap
    exact hfull ⟨i, hi, hgap⟩
  · intro hdone
    have hall := hcomplete.mp hdone
    have hiff := (hplaced.result.resolve_left fun hdropped => by
      rw [hdropped] at hdone
      cases hdone).2
    obtain ⟨-, hl, hmeat⟩ := hiff.mp hdone
    have hjoin : Extent.join (extentsOf o.queue.fragments) = D.payload := by
      refine List.ext_getElem? fun i => Option.ext fun x => ?_
      rw [hok.join_complete hmeat]
      constructor
      · rintro ⟨f, hf, hat⟩
        exact hagrees f hf i x hat
      · intro hx
        have hlt := (List.getElem?_eq_some_iff.mp hx).1
        obtain ⟨e, he, hhas⟩ := hall i hlt
        obtain ⟨f, hf, rfl⟩ := List.mem_map.mp he
        obtain ⟨y, hat⟩ := Extent.exists_at hhas
        have hy := hagrees f hf i y hat
        rw [hx] at hy
        cases hy
        exact ⟨f, hf, hat⟩
    have hpos : 0 < D.payload.length := List.length_pos_iff.mpr D.nonempty
    obtain ⟨e, he, -⟩ := hall 0 hpos
    obtain ⟨f, hf, rfl⟩ := List.mem_map.mp he
    have hecnD : o.queue.ecn = ip4FragEcn D.tos := hecn.resolve_left fun hnil => by
      rw [hnil.1] at hf
      cases hf
    unfold Ipq.ipFragReasm
    split
    next hnil =>
      rw [hnil] at hf
      cases hf
    next head rest hcons =>
      obtain ⟨hhlen, htos⟩ := hheader head (by rw [hcons]; exact List.mem_cons_self)
      have htable : ipFragEcnTable o.queue.ecn = 0 := by
        rw [hecnD]
        exact ipFragEcnTable_single D.tos
      have hfits : ¬ 65535 < head.hlen + o.queue.len := by
        have hle := D.fits
        rw [hhlen, hlastO hl]
        omega
      dsimp only
      rw [htable, if_neg (by decide), if_neg Bool.false_ne_true.symm, if_neg hfits]
      refine ⟨_, rfl, rfl, ?_, hhlen, ?_, hjoin, ?_⟩
      · exact BitVec.or_zero.trans htos
      · dsimp only
        rw [hhlen, hlastO hl]
      · rw [IpPacket.ipIsFragment]
        dsimp only
        split <;> rfl

end IpAugenblick
