/-
# Two ways to build a datagram

`udp_sendmsg` builds the skb of an uncorked datagram with `ipaugenblick_make_skb`, which stands for
`ip_make_skb`: `ip_setup_cork`, `__ip_append_data` and `__ip_make_skb` in one.  The plain path takes
the type of service from the socket when the cookie has none, its time to live from the cookie when
there is one, and sets DF by the path MTU policy of the socket; the fast path copies the cookie's
type of service, -1 included, does not read its time to live and never sets DF.  Without memory the
plain path returns an error and releases the route, and the fast path returns NULL, which
`udp_sendmsg` takes for success, and forgets the route.
-/

import Mathlib.Data.Int.Notation
import Mathlib.Tactic.NormNum

namespace IpAugenblick

/-- `sk_protocol` of a socket of `udp_sendmsg`. -/
inductive UdpProtocol
  | /-- `IPPROTO_UDP`. -/
    udp
  | /-- `IPPROTO_UDPLITE`. -/
    udplite
  deriving DecidableEq, Repr

def UdpProtocol.number : UdpProtocol → ℕ
  | .udp => 17
  | .udplite => 136

/-- `IP_PMTUDISC_DONT`, `_WANT`, `_DO`, `_PROBE` and `_INTERFACE`. -/
inductive Pmtudisc
  | dont
  | want
  | always
  | probe
  | interface
  deriving DecidableEq, Repr

def ipMaxMtu : ℕ := 0xFFFF

def ipDf : ℕ := 0x4000

/-- `sizeof(struct iphdr)`. -/
def ipHeaderLen : ℕ := 20

/-- What is read of `struct inet_sock`. -/
structure InetSock where
  protocol : UdpProtocol
  pmtudisc : Pmtudisc
  tos : UInt8
  /-- -1 for the route's. -/
  ucTtl : ℤ
  mcTtl : UInt8
  priority : ℤ
  mark : ℕ
  deriving DecidableEq, Repr

structure UdpRoute where
  multicast : Bool
  /-- `dst_mtu`, which `ipv4_mtu` bounds. -/
  dstMtu : ℕ
  dstMtu_le : dstMtu ≤ ipMaxMtu
  devMtu : ℕ
  /-- `dst_metric_locked` of `RTAX_MTU`. -/
  mtuLocked : Bool
  /-- `ip4_dst_hoplimit`. -/
  hoplimit : ℤ
  /-- `header_len`. -/
  headerLen : ℕ
  /-- `NETIF_F_V4_CSUM`. -/
  csumFeature : Bool
  deriving DecidableEq, Repr

/-- `struct ipcm_cookie` without options, as `udp_sendmsg` and `ip_cmsg_send` fill it. -/
structure IpcmCookie where
  txFlags : UInt8
  /-- 0 for none. -/
  ttl : UInt8
  /-- -1 for none. -/
  tos : ℤ
  tos_range : tos = -1 ∨ 0 ≤ tos ∧ tos < 256
  priority : ℤ
  deriving DecidableEq, Repr

theorem ethernetMtu_le : 1500 ≤ ipMaxMtu := by decide

theorem noTos_range : (-1 : ℤ) = -1 ∨ 0 ≤ (-1 : ℤ) ∧ (-1 : ℤ) < 256 := .inl rfl

/-- The arguments of the two functions. -/
structure MakeSkb where
  sk : InetSock
  /-- `saddr` and `daddr` of the flow. -/
  saddr : ℕ
  daddr : ℕ
  rt : UdpRoute
  ipc : IpcmCookie
  /-- The data of the chain, one list for each mbuf. -/
  chain : List (List UInt8)
  /-- The error of `sock_alloc_send_skb`, 0 when there is memory. -/
  allocErr : ℕ
  deriving DecidableEq, Repr

inductive IpSummed
  | checksumNone
  | checksumPartial
  deriving DecidableEq, Repr

/-- The fields of `struct iphdr` that are filled. -/
structure IpHdr where
  version : ℕ
  ihl : ℕ
  tos : UInt8
  fragOff : ℕ
  ttl : UInt8
  protocol : ℕ
  saddr : ℕ
  daddr : ℕ
  deriving DecidableEq, Repr

structure UdpSkb where
  iph : IpHdr
  ipSummed : IpSummed
  len : ℕ
  /-- The mbufs of the fragments. -/
  frags : List (List UInt8)
  txFlags : UInt8
  priority : ℤ
  mark : ℕ
  localDf : Bool
  deriving DecidableEq, Repr

/-- A pointer to an skb, NULL or an error pointer. -/
inductive SkbPtr
  | skb (s : UdpSkb)
  | null
  | err (errno : ℕ)
  deriving DecidableEq, Repr

/-- Where the reference to the route has gone. -/
inductive RouteRef
  | skb
  | released
  | lost
  deriving DecidableEq, Repr

namespace MakeSkb

variable (a : MakeSkb)

def transhdrlen : ℕ := 8

/-- `ulen` of `udp_sendmsg`. -/
def length : ℕ := a.chain.flatten.length + transhdrlen

def ipSkUsePmtu : Bool :=
  match a.sk.pmtudisc with
  | .dont | .want | .always => true
  | .probe | .interface => false

def mtu : ℕ := if a.ipSkUsePmtu then a.rt.dstMtu else a.rt.devMtu

/-- The time to live where the cookie has none: `mc_ttl` or `ip_select_ttl`. -/
def routeTtl : UInt8 :=
  if a.rt.multicast then a.sk.mcTtl
  else
    let ttl := if a.sk.ucTtl < 0 then a.rt.hoplimit else a.sk.ucTtl
    UInt8.ofNat (ttl % 256).toNat

def ipDontFragment : Bool :=
  match a.sk.pmtudisc with
  | .always => true
  | .want => !a.rt.mtuLocked
  | _ => false

/-- `memcpy_fromiovecend` and `csum_partial_copy_fromiovecend`: the mbufs that have data become
fragments. -/
def getfrag : List (List UInt8) := a.chain.filter (· ≠ [])

def csummode : IpSummed :=
  if a.length + ipHeaderLen ≤ a.mtu ∧ a.rt.csumFeature ∧ a.rt.headerLen = 0 then .checksumPartial
  else .checksumNone

def ipaugenblickMakeSkb : SkbPtr × RouteRef :=
  let exthdrlen := a.rt.headerLen
  let fraglen := ipHeaderLen + transhdrlen
  if a.allocErr ≠ 0 then (.null, .lost)
  else
    (.skb
      { iph :=
          { version := 4
            ihl := 5
            tos := UInt8.ofNat (a.ipc.tos % 256).toNat
            fragOff := 0
            ttl := a.routeTtl
            protocol := a.sk.protocol.number
            saddr := a.saddr
            daddr := a.daddr }
        ipSummed := a.csummode
        len := fraglen + exthdrlen - exthdrlen + a.getfrag.flatten.length
        frags := a.getfrag
        txFlags := a.ipc.txFlags
        priority := a.sk.priority
        mark := a.sk.mark
        localDf := false }, .skb)

/-! ## The plain path -/

/-- `struct inet_cork` without options. -/
structure InetCork where
  fragsize : ℕ
  ttl : UInt8
  tos : ℤ
  priority : ℤ
  txFlags : UInt8

/-- `ip_setup_cork`, which takes the route. -/
def ipSetupCork : InetCork where
  fragsize := a.mtu
  ttl := a.ipc.ttl
  tos := a.ipc.tos
  priority := a.ipc.priority
  txFlags := a.ipc.txFlags

def emsgsize : ℕ := 90

/-- An skb on the queue of `__ip_append_data`, and the length that is left for further ones. -/
structure Appended where
  ipSummed : IpSummed
  txFlags : UInt8
  len : ℕ
  frags : List (List UInt8)
  left : ℕ

/-- `__ip_append_data` on an empty queue, up to its second skb. -/
def ipAppendData (cork : InetCork) : Except ℕ Appended :=
  let mtu := cork.fragsize
  let fragheaderlen := ipHeaderLen
  let exthdrlen := a.rt.headerLen
  let maxfraglen := (mtu - fragheaderlen) / 8 * 8 + fragheaderlen
  let maxnonfragsize :=
    match a.sk.pmtudisc with
    | .dont | .want => 0xFFFF
    | .always | .probe | .interface => mtu
  if maxnonfragsize - fragheaderlen < a.length then .error emsgsize
  else
    let datalen := if mtu - fragheaderlen < a.length then maxfraglen - fragheaderlen else a.length
    let fraglen := fragheaderlen + transhdrlen
    if a.allocErr ≠ 0 then .error a.allocErr
    else
      let copy := datalen - transhdrlen
      let frags := if 0 < copy then a.getfrag else []
      .ok
        { ipSummed := a.csummode
          txFlags := cork.txFlags
          len := fraglen + exthdrlen + frags.flatten.length
          frags := frags
          left := a.length - datalen }

/-- `__ip_make_skb` of one skb. -/
def ipFinishSkb (cork : InetCork) (s : Appended) : UdpSkb :=
  let len := s.len - a.rt.headerLen
  let df := a.sk.pmtudisc = .always ∨ a.sk.pmtudisc = .probe ∨
    len ≤ a.rt.dstMtu ∧ a.ipDontFragment
  { iph :=
      { version := 4
        ihl := 5
        tos := if cork.tos ≠ -1 then UInt8.ofNat (cork.tos % 256).toNat else a.sk.tos
        fragOff := if df then ipDf else 0
        ttl := if cork.ttl ≠ 0 then cork.ttl else a.routeTtl
        protocol := a.sk.protocol.number
        saddr := a.saddr
        daddr := a.daddr }
    ipSummed := s.ipSummed
    len := len
    frags := s.frags
    txFlags := s.txFlags
    priority := if cork.tos ≠ -1 then cork.priority else a.sk.priority
    mark := a.sk.mark
    localDf := decide (a.sk.pmtudisc = .dont ∨ a.sk.pmtudisc = .want) }

/-- `ip_make_skb` of a datagram that is one skb; an error releases the cork with its route. -/
def ipMakeSkb : SkbPtr × RouteRef :=
  match a.ipAppendData a.ipSetupCork with
  | .error err => (.err err, .released)
  | .ok s => (.skb (a.ipFinishSkb a.ipSetupCork s), .skb)

/-! ## Agreement -/

/-- The fields of the header, the checksum mode, the length and the bytes are the same. -/
structure SameDatagram (s t : UdpSkb) : Prop where
  iph : s.iph = t.iph
  ipSummed : s.ipSummed = t.ipSummed
  len : s.len = t.len
  payload : s.frags.flatten = t.frags.flatten

/-- An error for `udp_sendmsg`, with the route released. -/
def Fails (made : SkbPtr × RouteRef) : Prop := (∃ err, made.1 = .err err) ∧ made.2 = .released

/-- Both paths build the same datagram, or both fail. -/
structure Agrees : Prop where
  built : a.allocErr = 0 → ∃ s t, a.ipaugenblickMakeSkb.1 = .skb s ∧ a.ipMakeSkb.1 = .skb t ∧
    SameDatagram s t
  failed : a.allocErr ≠ 0 → Fails a.ipaugenblickMakeSkb ∧ Fails a.ipMakeSkb

/-- There is memory, the cookie has a type of service or the socket's is 255, the cookie has no
time to live or the route's, and the socket does not ask for DF. -/
structure FastPathOk : Prop where
  memory : a.allocErr = 0
  tos : a.ipc.tos = -1 → a.sk.tos = 255
  ttl : a.ipc.ttl = 0 ∨ a.ipc.ttl = a.routeTtl
  df : a.sk.pmtudisc = .dont ∨ a.sk.pmtudisc = .interface ∨
    a.sk.pmtudisc = .want ∧ a.rt.mtuLocked = true

variable {a}

/-- Mbufs without data do not count. -/
theorem flatten_getfrag : a.getfrag.flatten = a.chain.flatten := List.flatten_filter_ne_nil

/-- What fits is within the size that is not fragmented. -/
theorem maxnonfragsize_le (hfits : a.length + ipHeaderLen ≤ a.mtu) :
    a.length + ipHeaderLen ≤
      (match a.sk.pmtudisc with
      | .dont | .want => 0xFFFF
      | .always | .probe | .interface => a.mtu) := by
  have hdst := a.rt.dstMtu_le
  unfold ipMaxMtu at hdst
  unfold mtu ipSkUsePmtu at hfits ⊢
  cases hpmtu : a.sk.pmtudisc with
  | dont =>
      simp only [hpmtu, if_true] at hfits
      exact hfits.trans hdst
  | want =>
      simp only [hpmtu, if_true] at hfits
      exact hfits.trans hdst
  | always => simpa only [hpmtu] using hfits
  | probe => simpa only [hpmtu] using hfits
  | interface => simpa only [hpmtu] using hfits

/-- A datagram that fits is one skb with all the data. -/
theorem ipAppendData_eq (hfits : a.length + ipHeaderLen ≤ a.mtu) (halloc : a.allocErr = 0) :
    ∃ frags, frags.flatten = a.chain.flatten ∧ a.ipAppendData a.ipSetupCork = .ok
      { ipSummed := a.csummode
        txFlags := a.ipc.txFlags
        len := ipHeaderLen + transhdrlen + a.rt.headerLen + a.chain.flatten.length
        frags := frags
        left := 0 } := by
  have hall : (if 0 < a.length - transhdrlen then a.getfrag else []).flatten =
      a.chain.flatten := by
    split
    next => exact flatten_getfrag
    next hempty =>
        have hlength : a.chain.flatten.length = 0 := by
          unfold length at hempty
          omega
        exact (List.length_eq_zero_iff.mp hlength).symm
  refine ⟨_, hall, ?_⟩
  have hsize := maxnonfragsize_le hfits
  have hmtu : ¬ a.ipSetupCork.fragsize - ipHeaderLen < a.length := by
    show ¬ a.mtu - ipHeaderLen < a.length
    omega
  unfold ipAppendData
  dsimp only
  rw [if_neg, if_neg hmtu, if_neg (not_not.mpr halloc), hall, Nat.sub_self]
  · rfl
  · show ¬ (match a.sk.pmtudisc with
      | .dont | .want => 0xFFFF
      | .always | .probe | .interface => a.mtu) - ipHeaderLen < a.length
    omega

theorem ipMakeSkb_of_ok {s : Appended} (h : a.ipAppendData a.ipSetupCork = .ok s) :
    a.ipMakeSkb = (.skb (a.ipFinishSkb a.ipSetupCork s), .skb) := by
  unfold ipMakeSkb
  rw [h]

/-- The skb of the plain path. -/
theorem ipMakeSkb_eq (hfits : a.length + ipHeaderLen ≤ a.mtu) (halloc : a.allocErr = 0) :
    ∃ t, a.ipMakeSkb.1 = .skb t ∧ t.ipSummed = a.csummode ∧
      t.len = ipHeaderLen + transhdrlen + a.chain.flatten.length ∧
      t.frags.flatten = a.chain.flatten ∧
      t.iph =
        { version := 4
          ihl := 5
          tos := if a.ipc.tos ≠ -1 then UInt8.ofNat (a.ipc.tos % 256).toNat else a.sk.tos
          fragOff := if a.sk.pmtudisc = .always ∨ a.sk.pmtudisc = .probe ∨
            a.length + ipHeaderLen ≤ a.rt.dstMtu ∧ a.ipDontFragment then ipDf else 0
          ttl := if a.ipc.ttl ≠ 0 then a.ipc.ttl else a.routeTtl
          protocol := a.sk.protocol.number
          saddr := a.saddr
          daddr := a.daddr } := by
  obtain ⟨frags, hall, happend⟩ := ipAppendData_eq hfits halloc
  have hlen : ipHeaderLen + transhdrlen + a.rt.headerLen + a.chain.flatten.length - a.rt.headerLen
      = a.length + ipHeaderLen := by
    unfold length
    omega
  refine ⟨_, congrArg Prod.fst (ipMakeSkb_of_ok happend), rfl, ?_, hall, ?_⟩
  · simp only [ipFinishSkb, hlen, length]
    omega
  · simp only [ipFinishSkb, ipSetupCork, hlen]
    congr

/-- The skb of the fast path. -/
theorem ipaugenblickMakeSkb_eq (halloc : a.allocErr = 0) :
    ∃ s, a.ipaugenblickMakeSkb.1 = .skb s ∧ s.ipSummed = a.csummode ∧
      s.len = ipHeaderLen + transhdrlen + a.chain.flatten.length ∧
      s.frags.flatten = a.chain.flatten ∧
      s.iph =
        { version := 4
          ihl := 5
          tos := UInt8.ofNat (a.ipc.tos % 256).toNat
          fragOff := 0
          ttl := a.routeTtl
          protocol := a.sk.protocol.number
          saddr := a.saddr
          daddr := a.daddr } := by
  unfold ipaugenblickMakeSkb
  dsimp only
  rw [if_neg (not_not.mpr halloc)]
  refine ⟨_, rfl, rfl, ?_, flatten_getfrag, rfl⟩
  dsimp only
  rw [flatten_getfrag]
  omega

/-- The fast path has the type of service of the plain one. -/
theorem tos_agrees_iff :
    UInt8.ofNat (a.ipc.tos % 256).toNat =
      (if a.ipc.tos ≠ -1 then UInt8.ofNat (a.ipc.tos % 256).toNat else a.sk.tos) ↔
      (a.ipc.tos = -1 → a.sk.tos = 255) := by
  by_cases htos : a.ipc.tos = -1
  · have hbyte : UInt8.ofNat ((-1 : ℤ) % 256).toNat = 255 := by decide
    simp only [htos, hbyte, ne_eq, not_true_eq_false, if_false, true_implies]
    exact eq_comm
  · simp [htos]

theorem ttl_agrees_iff :
    a.routeTtl = (if a.ipc.ttl ≠ 0 then a.ipc.ttl else a.routeTtl) ↔
      (a.ipc.ttl = 0 ∨ a.ipc.ttl = a.routeTtl) := by
  by_cases httl : a.ipc.ttl = 0
  · simp [httl]
  · simp only [ne_eq, httl, not_false_eq_true, if_true, false_or]
    exact eq_comm

/-- The plain path sets no DF. -/
theorem df_agrees_iff (hfits : a.length + ipHeaderLen ≤ a.mtu) :
    0 = (if a.sk.pmtudisc = .always ∨ a.sk.pmtudisc = .probe ∨
        a.length + ipHeaderLen ≤ a.rt.dstMtu ∧ a.ipDontFragment then ipDf else 0) ↔
      (a.sk.pmtudisc = .dont ∨ a.sk.pmtudisc = .interface ∨
        a.sk.pmtudisc = .want ∧ a.rt.mtuLocked = true) := by
  have hdf : ∀ c : Prop, [Decidable c] → (0 = (if c then ipDf else 0) ↔ ¬ c) := by
    intro c _
    by_cases hc : c
    · simp [hc, ipDf]
    · simp [hc]
  rw [hdf]
  unfold mtu ipSkUsePmtu at hfits
  cases hpmtu : a.sk.pmtudisc with
  | dont => simp [ipDontFragment, hpmtu]
  | want =>
      simp only [hpmtu, if_true] at hfits
      simp [ipDontFragment, hpmtu, hfits]
  | always => simp
  | probe => simp
  | interface => simp [ipDontFragment, hpmtu]

/-- **The fast path against the plain one.**  For a datagram that fits, both paths build the same
header, checksum mode, length and bytes, or both fail, if and only if there is memory, the type of
service and the time to live are not taken from elsewhere and the socket does not ask for DF. -/
theorem fast_path_agrees_iff (a : MakeSkb) (hfits : a.length + ipHeaderLen ≤ a.mtu) :
    a.Agrees ↔ a.FastPathOk := by
  constructor
  · intro h
    have hmemory : a.allocErr = 0 := by
      by_contra hnone
      obtain ⟨⟨⟨err, herr⟩, _⟩, _⟩ := h.failed hnone
      unfold ipaugenblickMakeSkb at herr
      dsimp only at herr
      rw [if_pos hnone] at herr
      cases herr
    obtain ⟨s, t, hs, ht, hsame⟩ := h.built hmemory
    obtain ⟨s', hs', _, _, _, hshdr⟩ := ipaugenblickMakeSkb_eq hmemory
    obtain ⟨t', ht', _, _, _, hthdr⟩ := ipMakeSkb_eq hfits hmemory
    obtain rfl : s' = s := SkbPtr.skb.inj (hs'.symm.trans hs)
    obtain rfl : t' = t := SkbPtr.skb.inj (ht'.symm.trans ht)
    have hiph := hsame.iph
    rw [hshdr, hthdr] at hiph
    injection hiph with _ _ htos hdf httl
    exact ⟨hmemory, tos_agrees_iff.mp htos, ttl_agrees_iff.mp httl, (df_agrees_iff hfits).mp hdf⟩
  · intro h
    refine ⟨fun _ => ?_, fun hnone => absurd h.memory hnone⟩
    obtain ⟨s, hs, hscsum, hslen, hsdata, hshdr⟩ := ipaugenblickMakeSkb_eq h.memory
    obtain ⟨t, ht, htcsum, htlen, htdata, hthdr⟩ := ipMakeSkb_eq hfits h.memory
    refine ⟨s, t, hs, ht, ?_, hscsum.trans htcsum.symm, hslen.trans htlen.symm,
      hsdata.trans htdata.symm⟩
    rw [hshdr, hthdr]
    congr 1
    · exact tos_agrees_iff.mpr h.tos
    · exact (df_agrees_iff hfits).mpr h.df
    · exact ttl_agrees_iff.mpr h.ttl

/-- A datagram of three bytes from a socket with the default settings. -/
def defaultDatagram : MakeSkb where
  sk := ⟨.udp, .want, 0, -1, 1, 0, 0⟩
  saddr := 0x0A000001
  daddr := 0x0A000002
  rt := ⟨false, 1500, ethernetMtu_le, 1500, false, 64, 0, true⟩
  ipc := ⟨0, 0, -1, noTos_range, 0⟩
  chain := [[1, 2, 3]]
  allocErr := 0

/-- The same with a type of service of its own, and path MTU discovery off. -/
def explicitDatagram : MakeSkb :=
  { defaultDatagram with
    sk := { defaultDatagram.sk with pmtudisc := .dont }
    ipc := { defaultDatagram.ipc with tos := 8, tos_range := .inr (by decide) } }

theorem fast_path_agrees_explicit : explicitDatagram.FastPathOk ∧ explicitDatagram.Agrees := by
  have hok : explicitDatagram.FastPathOk :=
    ⟨rfl, fun htos => absurd htos (by decide), .inl rfl, .inl rfl⟩
  exact ⟨hok, (fast_path_agrees_iff explicitDatagram (by decide)).mpr hok⟩

/-- The fast path sends it with type of service 255 and without DF. -/
theorem default_datagram_differs :
    defaultDatagram.length + ipHeaderLen ≤ defaultDatagram.mtu ∧ ¬ defaultDatagram.Agrees := by
  refine ⟨by decide, fun h => ?_⟩
  obtain ⟨s, t, hs, ht, hsame⟩ := h.built rfl
  cases hs
  cases ht
  exact absurd hsame.iph (by decide)

end MakeSkb

end IpAugenblick
