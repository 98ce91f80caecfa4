/-
# Receiving on a stream connection

The client side of a connection's receive path: the ring that the service fills,
the local cache in front of it, and the half-delivered chain that a bounded read
leaves behind (`shadow` and its companions).  A request for `n` bytes cuts the
chain it reads; what is left of it waits in the shadow for the next request.

`rxMachine` runs one connection with one client: chains are submitted, read,
released and finally flushed in any order the application may use.
-/

import IpAugenblick.Lib.Machine
import IpAugenblick.Lib.Ring
import IpAugenblick.Mbuf

namespace IpAugenblick

open Lib

/-- Usable slots of a connection's rings (`DATA_RINGS_SIZE` less one). -/
def dataRingCapacity : ℕ := 1023

/-- Usable slots of the client's cache in front of `rx_ring`. -/
def localCacheCapacity : ℕ := 63

/-- Usable slots of the command ring. -/
def commandRingCapacity : ℕ := 32767

def maxPktBurst : ℕ := 32

/-- The fields of `local_socket_descriptor_t` that describe a half-delivered chain. -/
structure Shadow where
  shadow : Option ℕ
  shadowNext : Option ℕ
  shadowLenRemainder : ℕ
  shadowLenDelievered : ℕ
  deriving DecidableEq, Repr

/-- What the receive path of one connection works on.  The rings hold the heads
of chains. -/
structure RxClient where
  mem : MbufMem
  ring : Ring ℕ dataRingCapacity
  cache : Ring ℕ localCacheCapacity
  descr : Shadow

namespace RxClient

/-- `ipaugenblick_dequeue_rx_buf`: one chain from the cache, then refill the
cache with a burst from the ring, and try the cache again if it had nothing. -/
def ipaugenblickDequeueRxBuf (c : RxClient) : Option ℕ × RxClient :=
  let first := c.cache.dequeue
  let cache := match first with
    | some (_, cache) => cache
    | none => c.cache
  let moved := if 0 < c.ring.count then
      let dequeued := if maxPktBurst < cache.freeCount then maxPktBurst else cache.freeCount
      let burst := c.ring.dequeueBurst dequeued
      { c with ring := burst.2, cache := cache.enqueueBurst burst.1 }
    else { c with cache }
  match first with
  | some (mbuf, _) => (some mbuf, moved)
  | none =>
      match moved.cache.dequeue with
      | some (mbuf, cache) => (some mbuf, { moved with cache })
      | none => (none, moved)

/-- The pending segment again as the head of a chain: its window is what the
descriptor recorded, its `pkt_len` is counted before it is linked again. -/
def restoreShadow (M : MbufMem) (descr : Shadow) (mbuf : ℕ) : MbufMem :=
  let M := M.setDataLen mbuf descr.shadowLenRemainder
  let M := M.modify mbuf fun m => { m with dataOff := m.dataOff + descr.shadowLenDelievered }
  let pktLen := (M.mbuf mbuf).dataLen + ((M.next mbuf).map fun next => (M.mbuf next).pktLen).getD 0
  let M := M.modify mbuf fun m => { m with pktLen }
  M.setNext mbuf descr.shadowNext

/-- `ipaugenblick_get_from_shadow`: the rest of a half-delivered chain becomes a
chain of its own again. -/
def ipaugenblickGetFromShadow (c : RxClient) : Option ℕ × RxClient :=
  match c.descr.shadow with
  | none => (none, c)
  | some mbuf =>
      (some mbuf, { c with
        mem := restoreShadow c.mem c.descr mbuf
        descr := { c.descr with shadow := none, shadowNext := none } })

end RxClient

/-- The loop of `ipaugenblick_try_read_exact_amount`: skip the segments that fit
the request entirely.  Returns `tmp`, `prev` and `curr_len`. -/
def skipWhole (M : MbufMem) (n : ℕ) : ℕ → Option ℕ → Option ℕ → ℕ → Option ℕ × Option ℕ × ℕ
  | 0, tmp, prev, curr => (tmp, prev, curr)
  | _ + 1, none, prev, curr => (none, prev, curr)
  | fuel + 1, some x, prev, curr =>
      if (M.mbuf x).dataLen + curr < n then
        skipWhole M n fuel (M.next x) (some x) (curr + (M.mbuf x).dataLen)
      else (some x, prev, curr)

/-- What `ipaugenblick_try_read_exact_amount` leaves: the buffers, the shadow,
`*total_len` and `*first_segment_len`. -/
structure ExactRead where
  mem : MbufMem
  descr : Shadow
  totalLen : ℕ
  firstSegmentLen : ℕ

/-- `ipaugenblick_try_read_exact_amount` on the chain at `mbuf`. -/
def ipaugenblickTryReadExactAmount (M : MbufMem) (descr : Shadow) (mbuf n : ℕ) : ExactRead :=
  match skipWhole M n M.size (some mbuf) none 0 with
  | (none, _, curr) =>
      { mem := M, descr, totalLen := curr, firstSegmentLen := (M.mbuf mbuf).dataLen }
  | (some tmp, prev, curr) =>
      let len := (M.mbuf tmp).dataLen
      let cut : ExactRead :=
        if n < curr + len then
          -- More data remains in this segment.
          let remainder := curr + len - n
          { mem := M.setDataLen tmp (len - remainder)
            descr :=
              { shadow := some tmp
                shadowNext := M.next tmp
                shadowLenRemainder := remainder
                shadowLenDelievered := len - remainder }
            totalLen := n
            firstSegmentLen := len - remainder }
        else
          -- The request ends with this segment; keep the next one, if there is one.
          { mem := M
            descr :=
              match M.next tmp with
              | none => descr
              | some rest =>
                  match M.next rest with
                  | none => { descr with shadow := some rest, shadowNext := none }
                  | some behind =>
                      { shadow := some rest
                        shadowNext := some behind
                        shadowLenRemainder := (M.mbuf behind).dataLen
                        shadowLenDelievered := 0 }
            totalLen := n
            firstSegmentLen := (M.mbuf mbuf).dataLen }
      let mem := cut.mem.setNext tmp none
      let mem := if curr = n then
          match prev with
          | some prev => mem.setNext prev none
          | none => mem
        else mem
      { cut with mem }

def rtePktmbufLastseg (M : MbufMem) : ℕ → ℕ → ℕ
  | 0, x => x
  | fuel + 1, x =>
      match M.next x with
      | none => x
      | some y => rtePktmbufLastseg M fuel y

/-- `rte_pktmbuf_mtod`: the buffer and the offset in it. -/
def rtePktmbufMtod (M : MbufMem) (x : ℕ) : ℕ × ℕ := (x, (M.mbuf x).dataOff)

/-- What a successful `ipaugenblick_receive` returns. -/
structure Received where
  pdesc : ℕ
  pbuffer : ℕ × ℕ
  totalLen : ℕ
  firstSegmentLen : ℕ

namespace RxClient

/-- `ipaugenblick_receive` with `*total_len = n`; `none` is the return value -1. -/
def ipaugenblickReceive (c : RxClient) (n : ℕ) : Option Received × RxClient :=
  match c.ipaugenblickGetFromShadow with
  | (some mbuf, c) =>
      if 0 < n then
        let first := ipaugenblickTryReadExactAmount c.mem c.descr mbuf n
        let c := { c with mem := first.mem, descr := first.descr }
        let pbuffer := rtePktmbufMtod c.mem mbuf
        if 0 < first.totalLen ∧ first.totalLen < n then
          -- Read less than requested: try the ring for the rest.
          match c.ipaugenblickDequeueRxBuf with
          | (none, c) => (some ⟨mbuf, pbuffer, first.totalLen, first.firstSegmentLen⟩, c)
          | (some mbuf2, c) =>
              let second :=
                ipaugenblickTryReadExactAmount c.mem c.descr mbuf2 (n - first.totalLen)
              let last := rtePktmbufLastseg second.mem second.mem.size mbuf
              (some ⟨mbuf, pbuffer, first.totalLen + second.totalLen, first.firstSegmentLen⟩,
                { c with mem := second.mem.setNext last (some mbuf2), descr := second.descr })
        else (some ⟨mbuf, pbuffer, n, first.firstSegmentLen⟩, c)
      else
        -- The application does not care how much: the shadow and one more chain.
        let (mbuf2, c) := c.ipaugenblickDequeueRxBuf
        let last := rtePktmbufLastseg c.mem c.mem.size mbuf
        let mem := c.mem.setNext last mbuf2
        let mem := match mbuf2 with
          | some mbuf2 => mem.modify mbuf fun m =>
              { m with pktLen := m.pktLen + (mem.mbuf mbuf2).pktLen }
          | none => mem
        (some ⟨mbuf, rtePktmbufMtod mem mbuf, (mem.mbuf mbuf).pktLen, (mem.mbuf mbuf).dataLen⟩,
          { c with mem })
  | (none, c) =>
      match c.ipaugenblickDequeueRxBuf with
      | (none, c) => (none, c)
      | (some mbuf, c) =>
          if 0 < n then
            let read := ipaugenblickTryReadExactAmount c.mem c.descr mbuf n
            (some ⟨mbuf, rtePktmbufMtod read.mem mbuf, read.totalLen, read.firstSegmentLen⟩,
              { c with mem := read.mem, descr := read.descr })
          else
            (some ⟨mbuf, rtePktmbufMtod c.mem mbuf, (c.mem.mbuf mbuf).pktLen,
              (c.mem.mbuf mbuf).dataLen⟩, c)

/-- `ipaugenblick_release_rx_buffer`: free the chain up to the shadow. -/
def ipaugenblickReleaseRxBuffer (c : RxClient) (pdesc : ℕ) : RxClient :=
  { c with
    mem := sweepUntil c.descr.shadow MbufMem.next MbufMem.rtePktmbufFreeSeg c.mem.size c.mem
      (some pdesc) }

/-- `ipaugenblick_flush_rx`: free the cache, the ring, the shadow and what is
remembered as behind it. -/
def ipaugenblickFlushRx (c : RxClient) : RxClient :=
  let mem := c.cache.items.foldl (fun M mbuf => M.rtePktmbufFree (some mbuf)) c.mem
  let mem := c.ring.items.foldl (fun M mbuf => M.rtePktmbufFree (some mbuf)) mem
  let mem := mem.rtePktmbufFree c.descr.shadow
  let mem := mem.rtePktmbufFree c.descr.shadowNext
  { mem, ring := .empty, cache := .empty,
    descr :=
      { shadow := none, shadowNext := none, shadowLenRemainder := 0, shadowLenDelievered := 0 } }

end RxClient

/-! ## Runs of one connection -/

/-- Fresh buffers for some segments, linked in order.  Each is a packet of its own
until it is linked. -/
def allocSegs : MbufMem → List (List UInt8) → MbufMem
  | M, [] => M
  | M, seg :: segs =>
      allocSegs
        { M with
          mbuf := Function.update M.mbuf M.size
            { dataOff := 128
              dataLen := seg.length
              pktLen := seg.length
              nbSegs := 1
              next := if segs = [] then none else some (M.size + 1)
              refcnt := 1
              buf := fun j => seg.getD (j - 128) 0 }
          size := M.size + 1 }
        segs

/-- A chain from the stack: `memcpy_toiovec` counts the segments and their bytes
in the head and leaves the other buffers as they came. -/
def allocChain (M : MbufMem) (segs : List (List UInt8)) : MbufMem :=
  (allocSegs M segs).modify M.size fun m =>
    { m with pktLen := segs.flatten.length, nbSegs := segs.length }

/-- One connection and its client, with the record of what went through. -/
structure RxState extends RxClient where
  /-- The descriptor the application holds and has not released. -/
  held : Option ℕ
  closed : Bool
  /-- All bytes submitted so far. -/
  submitted : List UInt8
  /-- All bytes read from returned chains so far. -/
  read : List UInt8
  /-- For every successful receive, latest first: the request and the bytes handed out. -/
  receives : List (ℕ × ℕ)

inductive RxStep
  | /-- `ipaugenblick_submit_rx_buf` of a chain with these segments. -/
    submit (segs : List (List UInt8))
  | /-- `ipaugenblick_receive` with `*total_len = n`, the chain read to its end. -/
    receive (n : ℕ)
  | /-- `ipaugenblick_release_rx_buffer` of the descriptor held. -/
    release
  | /-- `ipaugenblick_close`, with or without a free command buffer. -/
    close (gotCommand : Bool)
  deriving DecidableEq, Repr

/-- The memory before the first chain. -/
def noMbufs : MbufMem where
  mbuf _ :=
    { dataOff := 128, dataLen := 0, pktLen := 0, nbSegs := 1, next := none, refcnt := 0,
      buf := fun _ => 0 }
  size := 0
  frees := []
  puts := []

/-- One connection: the application releases what it got before it receives
again or closes; a close without a command buffer returns at once. -/
def rxMachine : Machine RxState RxStep where
  init :=
    { mem := noMbufs, ring := .empty, cache := .empty
      descr :=
        { shadow := none, shadowNext := none, shadowLenRemainder := 0, shadowLenDelievered := 0 }
      held := none, closed := false, submitted := [], read := [], receives := [] }
  step s
    | .submit segs =>
        if s.closed = false ∧ segs ≠ [] ∧ (∀ seg ∈ segs, 0 < seg.length ∧ seg.length < 65536) ∧
            0 < s.ring.freeCount then
          some { s with
            mem := allocChain s.mem segs
            ring := (s.ring.enqueueBulk 1 [s.mem.size]).2
            submitted := s.submitted ++ segs.flatten }
        else none
    | .receive n =>
        if s.closed = false ∧ s.held = none then
          match s.toRxClient.ipaugenblickReceive n with
          | (none, c) => some { s with toRxClient := c }
          | (some got, c) =>
              let bytes := c.mem.chainBytes c.mem.size (some got.pdesc)
              some { s with
                toRxClient := c
                held := some got.pdesc
                read := s.read ++ bytes
                receives := (n, bytes.length) :: s.receives }
        else none
    | .release =>
        match s.held with
        | some pdesc => some { s with
            toRxClient := s.toRxClient.ipaugenblickReleaseRxBuffer pdesc
            held := none }
        | none => none
    | .close gotCommand =>
        if s.closed = false ∧ s.held = none then
          if gotCommand then
            some { s with toRxClient := s.toRxClient.ipaugenblickFlushRx, closed := true }
          else some s
        else none

end IpAugenblick
