/-
# Socket buffers of the TCP send path

The `sk_buff` of the ported stack.  The payload of a TCP segment lives in
fragments that point at packet buffers; the linear part only ever holds headers
and comes from one more packet buffer, `header_mbuf`.

The operations are those a segment meets between the application and the wire:
`do_tcp_sendpages` builds it, `tcp_fragment` and `tcp_trim_head` reshape it,
`skb_clone` and the drivers' transmit functions put it on the wire, and
`sk_wmem_free_skb` drops it once it is acknowledged or purged.
-/

import IpAugenblick.Mbuf

namespace IpAugenblick

open Lib

def maxSkbFrags : ℕ := 32

/-- `MAX_TCP_HEADER`: the headroom that `sk_stream_alloc_skb` reserves. -/
def maxTcpHeader : ℕ := 128 + 32 + 48

def rtePktmbufHeadroom : ℕ := 128

/-- `1 << SKB_DATAREF_SHIFT`: the payload-only references are counted up here. -/
def skbDatarefUnit : ℤ := 65536

/-- Sequence numbers are 32-bit and wrap. -/
def seqAdd (seq n : ℕ) : ℕ := (seq + n) % 2 ^ 32

/-- `skb_frag_t`: a window of the data of one packet buffer. -/
structure Frag where
  page : ℕ
  pageOffset : ℕ
  size : ℕ
  deriving DecidableEq, Repr

/-- `skb_shared_info`, shared between a buffer and its clones. -/
structure SkbSharedInfo where
  frags : List Frag
  dataref : ℤ

/-- `struct sk_buff` with its TCP control block. -/
structure Skb where
  /-- The packet buffer behind `head`; null once a driver has taken it. -/
  headerMbuf : Option ℕ
  /-- `data - head`. -/
  headroom : ℕ
  len : ℕ
  dataLen : ℕ
  seq : ℕ
  endSeq : ℕ
  cloned : Bool
  nohdr : Bool
  shinfo : SkbSharedInfo

namespace Skb

def pages (skb : Skb) : List ℕ := skb.shinfo.frags.map Frag.page

/-- `skb_headlen`: the linear part. -/
def skbHeadlen (skb : Skb) : ℕ := skb.len - skb.dataLen

end Skb

def skbFragRef (M : MbufMem) (f : Frag) : MbufMem := M.rtePktmbufRefcntUpdate f.page 1

def skbFragUnref (M : MbufMem) (f : Frag) : MbufMem := M.rtePktmbufFreeSeg f.page

/-! ## Building segments: `do_tcp_sendpages` -/

/-- `sk_stream_alloc_skb(sk, 0, ...)` on a fresh header buffer. -/
def skStreamAllocSkb (header : ℕ) : Skb where
  headerMbuf := some header
  headroom := maxTcpHeader
  len := 0
  dataLen := 0
  seq := 0
  endSeq := 0
  cloned := false
  nohdr := false
  shinfo := { frags := [], dataref := 1 }

/-- What `do_tcp_sendpages` works on: the buffers, the header buffers that the
next allocations will return, `tp->write_seq`, the write queue, the segment being
filled and the bytes already in it. -/
structure SendState where
  mem : MbufMem
  headers : List ℕ
  writeSeq : ℕ
  queue : List Skb
  skb : Option Skb
  copied : ℕ

namespace SendState

/-- `if(!skb) skb = sk_stream_alloc_skb(...)`. -/
def alloc (s : SendState) : Option (Skb × SendState) :=
  match s.skb with
  | some skb => some (skb, s)
  | none =>
      match s.headers with
      | [] => none
      | header :: headers => some (skStreamAllocSkb header, { s with headers })

/-- `skb_entail` and the length updates of a filled segment. -/
def entail (s : SendState) (skb : Skb) : SendState :=
  { s with
    writeSeq := seqAdd s.writeSeq s.copied
    queue := s.queue ++ [{ skb with
      seq := s.writeSeq
      endSeq := seqAdd s.writeSeq s.copied
      nohdr := true
      shinfo.dataref := skb.shinfo.dataref + skbDatarefUnit
      len := skb.len + s.copied
      dataLen := skb.dataLen + s.copied }]
    skb := none
    copied := 0 }

/-- One round of the loop over the buffers: unlink the buffer, make it the next
fragment, and close the segment when it is full or the chain ends. -/
def addMbuf (s : SendState) (skb : Skb) (mbuf : ℕ) : SendState :=
  let next := s.mem.next mbuf
  let size := (s.mem.mbuf mbuf).dataLen
  let filled : Skb := { skb with
    shinfo.frags := skb.shinfo.frags ++ [{ page := mbuf, pageOffset := 0, size }] }
  let s := { s with mem := s.mem.setNext mbuf none, copied := s.copied + size }
  if maxSkbFrags ≤ filled.shinfo.frags.length ∨ next = none then s.entail filled
  else { s with skb := some filled }

/-- The `while(mbuf)` loop.  Without a segment to fill, the rest of the chain is freed. -/
def sendpagesLoop : ℕ → SendState → Option ℕ → SendState
  | 0, s, _ => s
  | _ + 1, s, none => s
  | fuel + 1, s, some mbuf =>
      match s.alloc with
      | none => { s with mem := s.mem.rtePktmbufFree (some mbuf), copied := 0 }
      | some (skb, s) => sendpagesLoop fuel (s.addMbuf skb mbuf) (s.mem.next mbuf)

end SendState

/-- `do_tcp_sendpages` on the chain `first` that `user_get_buffer` returned. -/
def doTcpSendpages (mem : MbufMem) (headers : List ℕ) (writeSeq : ℕ) (first : Option ℕ) :
    SendState :=
  SendState.sendpagesLoop mem.size
    { mem, headers, writeSeq, queue := [], skb := none, copied := 0 } first

/-! ## Reshaping segments -/

/-- The loop of `skb_split_no_header`: fragments before `len` stay, fragments
behind it move, the one across is split and its buffer referenced once more. -/
def splitFrags (len : ℕ) : MbufMem → ℕ → List Frag → MbufMem × List Frag × List Frag
  | M, _, [] => (M, [], [])
  | M, pos, f :: fs =>
      if len < pos + f.size then
        if pos < len then
          let (M, keep, move) := splitFrags len (skbFragRef M f) (pos + f.size) fs
          (M, { f with size := len - pos } :: keep,
            { f with
              pageOffset := f.pageOffset + (len - pos)
              size := f.size - (len - pos) } :: move)
        else
          let (M, keep, move) := splitFrags len M (pos + f.size) fs
          (M, keep, f :: move)
      else
        let (M, keep, move) := splitFrags len M (pos + f.size) fs
        (M, f :: keep, move)

/-- `tcp_fragment` with `buff` on the fresh header buffer `header`: the segment
keeps its first `len` bytes, the new one takes the rest. -/
def tcpFragment (M : MbufMem) (skb : Skb) (len header : ℕ) : Option (MbufMem × Skb × Skb) :=
  if skb.len < len then none
  else
    let (M, keep, move) := splitFrags len M skb.skbHeadlen skb.shinfo.frags
    let buff := skStreamAllocSkb header
    some (M,
      { skb with
        endSeq := seqAdd skb.seq len
        len := len
        dataLen := len - skb.skbHeadlen
        shinfo.frags := keep },
      { buff with
        seq := seqAdd skb.seq len
        endSeq := skb.endSeq
        len := skb.len - len
        dataLen := skb.len - len
        nohdr := true
        shinfo := { frags := move, dataref := buff.shinfo.dataref + skbDatarefUnit } })

/-- The loop of `__pskb_trim_head`.  With nothing left to eat it still drops the
empty fragments. -/
def trimFrags : MbufMem → ℕ → List Frag → MbufMem × List Frag
  | M, _, [] => (M, [])
  | M, eat, f :: fs =>
      if f.size ≤ eat then trimFrags (skbFragUnref M f) (eat - f.size) fs
      else
        let (M, fs) := trimFrags M 0 fs
        (M, { f with pageOffset := f.pageOffset + eat, size := f.size - eat } :: fs)

/-- `__pskb_trim_head`: the linear part first, then the fragments. -/
def pskbTrimHead (M : MbufMem) (skb : Skb) (len : ℕ) : MbufMem × Skb :=
  let eat := min len skb.skbHeadlen
  let skb := { skb with len := skb.len - eat, headroom := skb.headroom + eat }
  if eat ≠ 0 ∧ len - eat = 0 then (M, skb)
  else
    let (M, frags) := trimFrags M (len - eat) skb.shinfo.frags
    let dataLen := skb.dataLen - (len - eat)
    (M, { skb with shinfo.frags := frags, dataLen := dataLen, len := dataLen })

def tcpTrimHead (M : MbufMem) (skb : Skb) (len : ℕ) : MbufMem × Skb :=
  let (M, skb) := pskbTrimHead M skb len
  (M, { skb with seq := seqAdd skb.seq len })

/-! ## Transmitting and releasing -/

/-- `__skb_clone`: one more reference on the header buffer and on every
fragment.  The first component is the original, the second its clone; they share
`shinfo`. -/
def skbClone (M : MbufMem) (skb : Skb) : MbufMem × Skb × Skb :=
  let M := match skb.headerMbuf with
    | some header => M.rteMbufRefcntUpdate header 1
    | none => M
  let M := skb.shinfo.frags.foldl skbFragRef M
  let skb := { skb with cloned := true, shinfo.dataref := skb.shinfo.dataref + 1 }
  (M, skb, { skb with nohdr := false })

/-- `skb_release_data`: the last holder of the data drops the fragments and the
header buffer. -/
def skbReleaseData (M : MbufMem) (skb : Skb) : MbufMem × SkbSharedInfo :=
  let dataref := skb.shinfo.dataref - if skb.nohdr then skbDatarefUnit + 1 else 1
  if !skb.cloned || dataref = 0 then
    let M := skb.shinfo.frags.foldl skbFragUnref M
    let M := match skb.headerMbuf with
      | some header => M.rtePktmbufFreeSeg header
      | none => M
    (M, { skb.shinfo with dataref := if skb.cloned then dataref else skb.shinfo.dataref })
  else (M, { skb.shinfo with dataref })

/-- `skb_push` of `hlen` bytes of headers. -/
def skbPush (skb : Skb) (hlen : ℕ) : Skb :=
  { skb with headroom := skb.headroom - hlen, len := skb.len + hlen }

/-- The head of a frame: its window is set to the linear part of the segment. -/
def setupHead (M : MbufMem) (head : ℕ) (skb : Skb) : MbufMem :=
  M.modify head fun m => { m with
    dataLen := skb.skbHeadlen % 65536
    dataOff := rtePktmbufHeadroom + skb.headroom }

/-- The fragment loop of `dpdk_xmit_frame`: link each buffer behind `prev`,
reference it, and count its whole length. -/
def linkFrags : MbufMem → ℕ → ℕ → List Frag → MbufMem × ℕ
  | M, prev, pktLen, [] => (M.setNext prev none, pktLen)
  | M, prev, pktLen, f :: fs =>
      let M := skbFragRef (M.setNext prev (some f.page)) f
      linkFrags M f.page (pktLen + (M.mbuf f.page).dataLen) fs

/-- `dpdk_xmit_frame` up to the hand-over of the frame `head` to the port, and
the release of the segment. -/
def dpdkXmitFrame (M : MbufMem) (skb : Skb) (head : ℕ) : MbufMem × SkbSharedInfo :=
  let M := setupHead M head skb
  let M := M.modify head fun m => { m with nbSegs := 1 + skb.shinfo.frags.length }
  let (M, pktLen) := linkFrags M head (M.mbuf head).dataLen skb.shinfo.frags
  let M := M.modify head fun m => { m with pktLen }
  skbReleaseData M { skb with headerMbuf := none }

/-- The fragment loop of `lpbkdpdk_xmit_frame`: link and reference each buffer,
append its whole data to the copy, and drop it again. -/
def copyFrags (copied : ℕ) : MbufMem → ℕ → ℕ → List Frag → MbufMem × ℕ
  | M, prev, offset, [] => (M.setNext prev none, offset)
  | M, prev, offset, f :: fs =>
      let M := skbFragRef (M.setNext prev (some f.page)) f
      let source := (M.mbuf f.page).data
      let M := M.modify copied fun m =>
        { m.write (m.dataOff + offset) source with
          dataLen := (m.dataLen + source.length) % 65536 }
      let M := M.rtePktmbufFreeSeg f.page
      copyFrags copied M f.page (offset + source.length) fs

/-- `lpbkdpdk_xmit_frame` with `copied` as the result of `rte_pktmbuf_alloc`:
the frame is one buffer that headers and payload are copied into. -/
def lpbkdpdkXmitFrame (M : MbufMem) (skb : Skb) (head copied : ℕ) :
    MbufMem × SkbSharedInfo :=
  let M := setupHead M head skb
  let headers := (M.mbuf head).data
  let M := M.modify copied fun m =>
    { m.write m.dataOff headers with dataLen := headers.length }
  let M := M.rtePktmbufFreeSeg head
  let (M, offset) := copyFrags copied M head headers.length skb.shinfo.frags
  let (M, shinfo) := skbReleaseData M { skb with headerMbuf := none }
  (M.modify copied fun m => { m with pktLen := offset }, shinfo)

/-- A transmission as TCP does it: clone, push the headers, hand the clone to
the driver.  The clone shares `shinfo`, so what its release leaves there is what
the original sees. -/
def tcpTransmitSkb (M : MbufMem) (skb : Skb) (hlen head : ℕ) : MbufMem × Skb :=
  let (M, skb, clone) := skbClone M skb
  let (M, shinfo) := dpdkXmitFrame M (skbPush clone hlen) head
  (M, { skb with shinfo })

/-- `user_transmitted_callback` on one buffer. -/
def userTransmittedCallback (M : MbufMem) (f : Frag) : MbufMem := M.rtePktmbufFreeSeg f.page

/-- `sk_wmem_free_skb`: the callback for every fragment, then `__kfree_skb`. -/
def skWmemFreeSkb (M : MbufMem) (skb : Skb) : MbufMem × SkbSharedInfo :=
  skbReleaseData (skb.shinfo.frags.foldl userTransmittedCallback M) skb

end IpAugenblick
