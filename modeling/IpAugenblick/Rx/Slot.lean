/-
# A connection's receive side as shared memory

The service fills `rx_ring` while the client empties it, and `read_ready_to_app`
says whether a wake-up is outstanding.  `dequeueStep` is
`ipaugenblick_dequeue_rx_buf` cut into its accesses to the shared memory, so that
steps of the service can come between any two of them.  Without interference the
pieces add up to the function.
-/

import IpAugenblick.Client.Receive

namespace IpAugenblick

open Lib

/-- The receive side of a connection. -/
structure Slot (α : Type) where
  ring : Ring α dataRingCapacity
  cache : Ring α localCacheCapacity
  readReadyToApp : Bool

/-- Where a client is inside `ipaugenblick_dequeue_rx_buf`; the argument is `mbuf`. -/
inductive DequeuePc (α : Type)
  | /-- Before the first look into the cache. -/
    start
  | /-- Before `read_ready_to_app` is cleared. -/
    clear (mbuf : Option α)
  | /-- Before the ring is counted. -/
    count (mbuf : Option α)
  | /-- The ring was not empty; before the burst. -/
    burst (mbuf : Option α)
  | /-- Before the second look into the cache. -/
    again (mbuf : Option α)
  | /-- Before RX_KICK is sent. -/
    kick (mbuf : Option α)

namespace Slot

variable {α : Type}

/-- One access of `ipaugenblick_dequeue_rx_buf`. -/
def dequeueStep (s : Slot α) : DequeuePc α → Slot α × DequeuePc α
  | .start =>
      match s.cache.dequeue with
      | some (mbuf, cache) => ({ s with cache }, .clear (some mbuf))
      | none => (s, .clear none)
  | .clear mbuf => ({ s with readReadyToApp := false }, .count mbuf)
  | .count mbuf => (s, if 0 < s.ring.count then .burst mbuf else .again mbuf)
  | .burst mbuf =>
      let dequeued :=
        if maxPktBurst < s.cache.freeCount then maxPktBurst else s.cache.freeCount
      let burst := s.ring.dequeueBurst dequeued
      ({ s with ring := burst.2, cache := s.cache.enqueueBurst burst.1 }, .again mbuf)
  | .again (some mbuf) => (s, .kick (some mbuf))
  | .again none =>
      match s.cache.dequeue with
      | some (mbuf, cache) => ({ s with cache }, .kick (some mbuf))
      | none => (s, .kick none)
  | .kick mbuf => (s, .kick mbuf)

end Slot

/-- **The steps add up.**  Five accesses without interference are one call. -/
theorem dequeueStep_iterate (c : RxClient) (flag : Bool) :
    (fun p => Slot.dequeueStep p.1 p.2)^[5] (⟨c.ring, c.cache, flag⟩, .start) =
      (⟨c.ipaugenblickDequeueRxBuf.2.ring, c.ipaugenblickDequeueRxBuf.2.cache, false⟩,
        .kick c.ipaugenblickDequeueRxBuf.1) := by
  simp only [Function.iterate_succ, Function.iterate_zero, Function.comp, id]
  unfold RxClient.ipaugenblickDequeueRxBuf
  cases hfirst : c.cache.dequeue with
  | some pair =>
      obtain ⟨mbuf, cache⟩ := pair
      by_cases hring : 0 < c.ring.count
      · simp [Slot.dequeueStep, hfirst, hring]
      · simp [Slot.dequeueStep, hfirst, hring]
  | none =>
      by_cases hring : 0 < c.ring.count
      · simp only [Slot.dequeueStep, hfirst, if_pos hring]
        cases (c.cache.enqueueBurst (c.ring.dequeueBurst
            (if maxPktBurst < c.cache.freeCount then maxPktBurst else c.cache.freeCount)).1).dequeue
          with
        | some pair => rfl
        | none => rfl
      · simp [Slot.dequeueStep, hfirst, hring]

end IpAugenblick
