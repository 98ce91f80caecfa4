/-
# Fragmentation

`ip_fragment` sends a packet that is larger than the MTU in parts.  A packet whose skb has a
list of further skbs of the right sizes is sent as these skbs, each behind a copy of the header;
any other one is cut and copied.  What is sent either way are pieces of the same datagram, also
when the packet was a fragment before.
-/

import IpAugenblick.Lib.Extents
import IpAugenblick.Stack.MakeSkb
import IpAugenblick.Stack.Skb
import Mathlib.Data.Nat.Bitwise

namespace IpAugenblick

open Lib

def ipMf : ℕ := 0x2000

def ipOffsetMask : ℕ := 0x1FFF

/-- What the fragments of a datagram have in common. -/
structure FragKey where
  id : BitVec 16
  saddr : BitVec 32
  daddr : BitVec 32
  protocol : BitVec 8
  deriving DecidableEq, Repr

/-- A packet on the wire.  `fragOff` is `iph->frag_off` in host order and `hlen` is `ihl * 4`. -/
structure IpPacket where
  key : FragKey
  tos : BitVec 8
  fragOff : ℕ
  hlen : ℕ
  totLen : ℕ
  payload : List UInt8
  deriving DecidableEq, Repr

namespace IpPacket

/-- Where the payload is in the datagram: `(frag_off & IP_OFFSET) << 3`. -/
def offset (p : IpPacket) : ℕ := (p.fragOff &&& ipOffsetMask) <<< 3

/-- `frag_off & IP_MF`. -/
def moreFragments (p : IpPacket) : Bool := p.fragOff &&& ipMf != 0

def ipIsFragment (p : IpPacket) : Bool := p.fragOff &&& (ipMf ||| ipOffsetMask) != 0

def extent (p : IpPacket) : Extent UInt8 := ⟨p.offset, p.payload⟩

end IpPacket

structure FragListSkb where
  data : List UInt8
  headroom : ℕ
  shared : Bool
  deriving DecidableEq, Repr

/-- The skb that `ip_fragment` is given.  `first` is what the skb itself has behind the header. -/
structure IpSkb where
  key : FragKey
  tos : BitVec 8
  fragOff : ℕ
  hlen : ℕ
  totLen : ℕ
  first : List UInt8
  fragList : List FragListSkb
  cloned : Bool
  localDf : Bool
  fragMaxSize : ℕ
  deriving DecidableEq, Repr

def IpSkb.packet (s : IpSkb) : IpPacket where
  key := s.key
  tos := s.tos
  fragOff := s.fragOff
  hlen := s.hlen
  totLen := s.totLen
  payload := s.first ++ s.fragList.flatMap (·.data)

/-- How `ip_fragment` ends. -/
inductive FragmentEnd
  | /-- 0, and everything was sent. -/
    ok
  | /-- `-EMSGSIZE`, and nothing was sent. -/
    emsgsize
  | /-- `skb_checksum_help` failed: 0 as well, as `err` is still what it was at the start, and
    nothing was sent. -/
    checksum
  | /-- There was no memory for a fragment, or `output` failed. -/
    failed
  | /-- `skb_put` found no room in the skb and stopped the service. -/
    overrun
  deriving DecidableEq, Repr

def cacheLineSize : ℕ := 64

def skbDataAlign (n : ℕ) : ℕ :=
  (n + (cacheLineSize - 1)) / cacheLineSize * cacheLineSize

/-- The linear room of the skb that `alloc_skb` gives for `size` bytes.  `__alloc_skb` cuts the size
to `MAX_TCP_HEADER`: in the port more than headers is meant to go into page fragments, which
`ip_fragment` does not use. -/
def allocSkbRoom (size : ℕ) : ℕ := skbDataAlign (min size maxTcpHeader)

/-- What `ip_fragment` finds on its way. -/
structure FragmentEnv where
  /-- `LL_RESERVED_SPACE_EXTRA` of the device. -/
  llRs : ℕ
  /-- No checksum is left to the device, or `skb_checksum_help` fills it in. -/
  checksumHelp : Bool
  /-- `alloc_skb`, round by round. -/
  alloc : ℕ → Bool
  /-- `output`, frame by frame. -/
  output : ℕ → Bool

/-- The `mtu` of `ip_fragment` after the header is taken off, an `unsigned int`. -/
def dataSpace (mtu hlen : ℕ) : ℕ := (mtu + 2 ^ 32 - hlen) % 2 ^ 32

/-- The header field of a fragment: `htons(offset >> 3)` and possibly `IP_MF`. -/
def fragOffOf (offset : ℕ) (more : Bool) : ℕ :=
  offset / 8 % 65536 ||| if more then ipMf else 0

def IpPacket.fragmentAt (p : IpPacket) (offset : ℕ) (more : Bool) (bytes : List UInt8) : IpPacket :=
  { p with
    fragOff := fragOffOf offset more
    totLen := bytes.length + p.hlen
    payload := bytes }

/-- The length of the next fragment, with `left` bytes to go. -/
def fragmentLen (space left : ℕ) : ℕ :=
  let len := if left > space then space else left
  if len < left then len - len % 8 else len

/-- `slow_path`: copy until there is nothing left, into skbs of which `room` tells what they hold;
`none` when `fuel` rounds were not enough. -/
def slowPath (room : ℕ → ℕ) (p : IpPacket) (space : ℕ) (env : FragmentEnv) :
    ℕ → ℕ → ℕ → List UInt8 → Option (List IpPacket × FragmentEnd)
  | 0, _, _, _ => none
  | fuel + 1, round, offset, rest =>
      if rest.length = 0 then some ([], .ok)
      else
        let len := fragmentLen space rest.length
        let more := decide (0 < rest.length - len) || p.moreFragments
        if !env.alloc round then some ([], .failed)
        else if room (len + p.hlen + env.llRs) < env.llRs + (len + p.hlen) then
          some ([], .overrun)
        else if env.output round then
          (slowPath room p space env fuel (round + 1) (offset + len) (rest.drop len)).map
            fun (sent, e) => (p.fragmentAt offset more (rest.take len) :: sent, e)
        else some ([], .failed)

def fragListFits (space hlen : ℕ) : List FragListSkb → Bool
  | [] => true
  | frag :: rest =>
      decide (frag.data.length ≤ space) && (frag.data.length % 8 == 0 || rest.isEmpty) &&
        decide (hlen ≤ frag.headroom) && !frag.shared && fragListFits space hlen rest

/-- The skb can be sent as it is: with a frag list of the right sizes. -/
def IpSkb.fastPathOk (s : IpSkb) (space : ℕ) : Bool :=
  !s.fragList.isEmpty && decide (s.first.length ≤ space) && s.first.length % 8 == 0 &&
    !s.packet.ipIsFragment && !s.cloned && fragListFits space s.hlen s.fragList

/-- The frames of the frag list from round `round` on: `offset` is where the next one begins. -/
def fastPath (p : IpPacket) (output : ℕ → Bool) :
    ℕ → ℕ → List FragListSkb → List IpPacket × FragmentEnd
  | _, _, [] => ([], .ok)
  | round, offset, frag :: rest =>
      if output round then
        let (sent, e) := fastPath p output (round + 1) (offset + frag.data.length) rest
        (p.fragmentAt offset (!rest.isEmpty) frag.data :: sent, e)
      else ([], .failed)

/-- `ip_fragment` cuts nothing: the packet must not be cut, or an earlier router has cut it to
fragments that the MTU does not take. -/
def IpSkb.Refused (s : IpSkb) (mtu : ℕ) : Prop :=
  (s.fragOff &&& ipDf ≠ 0 ∧ s.localDf = false) ∨ (s.fragMaxSize ≠ 0 ∧ mtu < s.fragMaxSize)

instance (s : IpSkb) (mtu : ℕ) : Decidable (s.Refused mtu) :=
  inferInstanceAs (Decidable
    ((s.fragOff &&& ipDf ≠ 0 ∧ s.localDf = false) ∨ (s.fragMaxSize ≠ 0 ∧ mtu < s.fragMaxSize)))

/-- `ip_fragment` with the result `mtu` of `ip_dst_mtu_maybe_forward`: the fragments that
`output` took, and how it ends.  Where the slow path finds room for its skbs is left open here. -/
def ipFragmentIn (room : ℕ → ℕ) (s : IpSkb) (mtu : ℕ) (env : FragmentEnv) (fuel : ℕ) :
    Option (List IpPacket × FragmentEnd) :=
  if s.Refused mtu then some ([], .emsgsize)
  else
    let space := dataSpace mtu s.hlen
    if s.fastPathOk space then
      if env.output 0 then
        let (sent, e) := fastPath s.packet env.output 1 s.first.length s.fragList
        some (s.packet.fragmentAt 0 true s.first :: sent, e)
      else some ([], .failed)
    else if env.checksumHelp then
      slowPath room s.packet space env fuel 0 s.packet.offset s.packet.payload
    else some ([], .checksum)

/-- `ip_fragment`, with the skbs of this stack. -/
def ipFragment (s : IpSkb) (mtu : ℕ) (env : FragmentEnv) (fuel : ℕ) :
    Option (List IpPacket × FragmentEnd) :=
  ipFragmentIn allocSkbRoom s mtu env fuel

/-! ## The offset field -/

theorem and_ipOffsetMask (n : ℕ) : n &&& ipOffsetMask = n % 8192 :=
  Nat.and_two_pow_sub_one_eq_mod n 13

theorem IpPacket.offset_eq (p : IpPacket) : p.offset = p.fragOff % 8192 * 8 := by
  rw [IpPacket.offset, and_ipOffsetMask, Nat.shiftLeft_eq]

theorem fragOffOf_true {offset : ℕ} (h : offset < 65536) :
    fragOffOf offset true = 8192 + offset / 8 := by
  have hlt : offset / 8 < 2 ^ 13 := by omega
  have hmod : offset / 8 % 65536 = offset / 8 := Nat.mod_eq_of_lt (by omega)
  rw [fragOffOf, hmod, if_pos rfl, Nat.or_comm]
  exact (Nat.two_pow_add_eq_or_of_lt hlt 1).symm

theorem fragOffOf_false {offset : ℕ} (h : offset < 65536) :
    fragOffOf offset false = offset / 8 := by
  have hmod : offset / 8 % 65536 = offset / 8 := Nat.mod_eq_of_lt (by omega)
  simp [fragOffOf, hmod]

section FragmentAt

variable (p : IpPacket) {o : ℕ} (more : Bool) (bytes : List UInt8)

/-- A fragment says where it is. -/
theorem IpPacket.offset_fragmentAt (ho : o < 65536) (h8 : o % 8 = 0) :
    (p.fragmentAt o more bytes).offset = o := by
  rw [IpPacket.offset_eq]
  cases more with
  | true =>
      rw [fragmentAt, fragOffOf_true ho]
      dsimp only
      omega
  | false =>
      rw [fragmentAt, fragOffOf_false ho]
      dsimp only
      omega

/-- A fragment says whether more follow. -/
theorem IpPacket.moreFragments_fragmentAt (ho : o < 65536) :
    (p.fragmentAt o more bytes).moreFragments = more := by
  have hlt : o / 8 < 2 ^ 13 := by omega
  have hbit : (o / 8).testBit 13 = false := Nat.testBit_lt_two_pow hlt
  have hmask : ipMf = 2 ^ 13 := rfl
  cases more with
  | true =>
      have hset : (2 ^ 13 + o / 8).testBit 13 = true := by
        rw [Nat.testBit_two_pow_add_eq, hbit]
        rfl
      rw [moreFragments, fragmentAt, fragOffOf_true ho]
      dsimp only
      rw [show 8192 = 2 ^ 13 from rfl, hmask, Nat.and_two_pow, hset]
      rfl
  | false =>
      rw [moreFragments, fragmentAt, fragOffOf_false ho]
      dsimp only
      rw [hmask, Nat.and_two_pow, hbit]
      rfl

end FragmentAt

/-! ## Pieces of a datagram -/

/-- A datagram with a payload, as it is before any fragmentation. -/
structure IpDatagram where
  key : FragKey
  tos : BitVec 8
  hlen : ℕ
  payload : List UInt8
  /-- There is something to send. -/
  nonempty : payload ≠ []
  /-- The length fits `tot_len`. -/
  fits : hlen + payload.length ≤ 65535
  deriving DecidableEq

/-- The packet carries a piece of the datagram. -/
structure PieceOf (D : IpDatagram) (p : IpPacket) : Prop where
  key : p.key = D.key
  tos : p.tos = D.tos
  hlen : p.hlen = D.hlen
  nonempty : p.payload ≠ []
  slice : p.payload = (D.payload.drop p.offset).take p.payload.length
  within : p.extent.stop ≤ D.payload.length
  more : p.moreFragments = true ↔ p.extent.stop < D.payload.length
  aligned : p.moreFragments = true → p.payload.length % 8 = 0

/-- The payload from `offset` on is the rest of a piece that is being cut up. -/
structure RestOf (D : IpDatagram) (p : IpPacket) (offset : ℕ) (rest : List UInt8) : Prop where
  slice : rest = (D.payload.drop offset).take rest.length
  within : offset + rest.length ≤ D.payload.length
  start : offset % 8 = 0
  more : p.moreFragments = true ↔ offset + rest.length < D.payload.length
  aligned : p.moreFragments = true → rest.length % 8 = 0

section Pieces

variable {D : IpDatagram} {p : IpPacket} {offset : ℕ} {rest : List UInt8}

theorem PieceOf.restOf (h : PieceOf D p) : RestOf D p p.offset p.payload where
  slice := h.slice
  within := h.within
  start := by
    rw [p.offset_eq]
    exact Nat.mul_mod_left _ _
  more := h.more
  aligned := h.aligned

theorem RestOf.offset_lt (h : RestOf D p offset rest) : offset < 65536 := by
  have hwithin := h.within
  have hfits := D.fits
  omega

/-- What is behind a cut at a multiple of eight is a rest again. -/
theorem RestOf.drop (h : RestOf D p offset rest) {len : ℕ} (hle : len ≤ rest.length)
    (h8 : len % 8 = 0) : RestOf D p (offset + len) (rest.drop len) where
  slice := by
    have hslice := h.slice
    rw [List.length_drop]
    conv_lhs => rw [hslice]
    rw [List.drop_take, List.drop_drop]
  within := by
    have hwithin := h.within
    rw [List.length_drop]
    omega
  start := by
    have hstart := h.start
    omega
  more := by
    have hsum : offset + len + (rest.drop len).length = offset + rest.length := by
      rw [List.length_drop]
      omega
    rw [hsum]
    exact h.more
  aligned hm := by
    have hal := h.aligned hm
    rw [List.length_drop]
    omega

/-- The front of a rest is sent as a piece. -/
theorem RestOf.piece (hp : PieceOf D p) (h : RestOf D p offset rest) {len : ℕ} (hpos : 0 < len)
    (hle : len ≤ rest.length) (h8 : len < rest.length → len % 8 = 0) :
    PieceOf D
      (p.fragmentAt offset (decide (0 < rest.length - len) || p.moreFragments)
        (rest.take len)) := by
  have hwithin := h.within
  have hlen : (rest.take len).length = len := by rw [List.length_take, Nat.min_eq_left hle]
  have hoff := p.offset_fragmentAt (decide (0 < rest.length - len) || p.moreFragments)
    (rest.take len) h.offset_lt h.start
  have hstop : (p.fragmentAt offset (decide (0 < rest.length - len) || p.moreFragments)
      (rest.take len)).extent.stop = offset + len := by
    simp only [Extent.stop, IpPacket.extent, hoff]
    rw [show (p.fragmentAt offset _ (rest.take len)).payload = rest.take len from rfl, hlen]
  constructor
  · exact hp.key
  · exact hp.tos
  · exact hp.hlen
  · show rest.take len ≠ []
    refine List.ne_nil_of_length_pos ?_
    rwa [hlen]
  · rw [hoff, show (p.fragmentAt offset _ (rest.take len)).payload = rest.take len from rfl, hlen]
    conv_lhs => rw [h.slice, List.take_take, Nat.min_eq_left hle]
  · rw [hstop]
    omega
  · have hmore := h.more
    rw [hstop, p.moreFragments_fragmentAt _ _ h.offset_lt]
    simp only [Bool.or_eq_true, decide_eq_true_eq, hmore]
    omega
  · rw [p.moreFragments_fragmentAt _ _ h.offset_lt,
      show (p.fragmentAt offset _ (rest.take len)).payload = rest.take len from rfl, hlen]
    intro hm
    rcases Nat.lt_or_ge len rest.length with hlt | hge
    · exact h8 hlt
    · have heq : len = rest.length := Nat.le_antisymm hle hge
      subst heq
      rw [Nat.sub_self] at hm
      exact h.aligned (by simpa using hm)

/-- The extents of some packets make up a range. -/
def MakeUp (ps : List IpPacket) (lo hi : ℕ) : Prop :=
  ∀ i, Extent.Covers (ps.map IpPacket.extent) i ↔ lo ≤ i ∧ i < hi

theorem makeUp_nil (n : ℕ) : MakeUp [] n n := by
  intro i
  simp only [List.map_nil, Extent.covers_nil, false_iff]
  omega

theorem MakeUp.cons {q : IpPacket} {ps : List IpPacket} {lo mid hi : ℕ} (h : MakeUp ps mid hi)
    (hstart : q.extent.offset = lo) (hstop : q.extent.stop = mid) (hle : mid ≤ hi) :
    MakeUp (q :: ps) lo hi := by
  intro i
  have hlo : lo ≤ mid := by
    rw [← hstart, ← hstop, Extent.stop]
    omega
  rw [List.map_cons, Extent.covers_cons, h i, Extent.Has, hstart, hstop]
  omega

theorem fragmentLen_eq (space left : ℕ) :
    fragmentLen space left = if space < left then space - space % 8 else left := by
  unfold fragmentLen
  dsimp only
  split
  next => rfl
  next => rw [if_neg (lt_irrefl left)]

theorem fragmentLen_le (space left : ℕ) : fragmentLen space left ≤ left := by
  rw [fragmentLen_eq]
  split <;> omega

theorem fragmentLen_le_space (space left : ℕ) : fragmentLen space left ≤ space := by
  rw [fragmentLen_eq]
  split <;> omega

/-- A fragment that is not the last one of its packet has whole units of eight bytes. -/
theorem fragmentLen_aligned {space left : ℕ} (h : fragmentLen space left < left) :
    fragmentLen space left % 8 = 0 := by
  rw [fragmentLen_eq] at h ⊢
  split at h
  next hlt =>
    rw [if_pos hlt]
    omega
  next => exact absurd h (lt_irrefl left)

/-- A round makes progress exactly when eight bytes fit, or all that is left. -/
theorem fragmentLen_pos_iff {space left : ℕ} (hleft : 0 < left) :
    0 < fragmentLen space left ↔ 8 ≤ space ∨ left ≤ space := by
  rw [fragmentLen_eq]
  split <;> omega

/-- What `slow_path` sends are pieces that fit, and all of the rest when it succeeds. -/
theorem slowPath_pieces (hp : PieceOf D p) {room : ℕ → ℕ} {space : ℕ} {env : FragmentEnv}
    {fuel round : ℕ}
    (hrest : rest ≠ [] → RestOf D p offset rest) (hspace : 8 ≤ space ∨ rest.length ≤ space)
    {sent : List IpPacket} {e : FragmentEnd}
    (hrun : slowPath room p space env fuel round offset rest = some (sent, e)) :
    (∀ q ∈ sent, PieceOf D q ∧ q.payload.length ≤ space) ∧
      (e = .ok → MakeUp sent offset (offset + rest.length)) := by
  induction fuel generalizing round offset rest sent e with
  | zero => cases hrun
  | succ fuel ih =>
      rw [slowPath] at hrun
      split at hrun
      next hnil =>
        cases hrun
        refine ⟨nofun, fun _ => ?_⟩
        rw [hnil]
        exact makeUp_nil offset
      next hne =>
        have hpos := (fragmentLen_pos_iff (Nat.pos_of_ne_zero hne)).mpr hspace
        have hle := fragmentLen_le space rest.length
        have hthis := hrest (List.ne_nil_of_length_pos (Nat.pos_of_ne_zero hne))
        dsimp only at hrun
        split at hrun
        next =>
          cases hrun
          exact ⟨nofun, nofun⟩
        split at hrun
        next =>
          cases hrun
          exact ⟨nofun, nofun⟩
        split at hrun
        next =>
          obtain ⟨⟨sent', e'⟩, hrec, heq⟩ := Option.map_eq_some_iff.mp hrun
          cases heq
          have hpiece := hthis.piece hp hpos hle fragmentLen_aligned
          have hlen : (rest.drop (fragmentLen space rest.length)).length =
              rest.length - fragmentLen space rest.length := List.length_drop
          have hnext : rest.drop (fragmentLen space rest.length) ≠ [] →
              RestOf D p (offset + fragmentLen space rest.length)
                (rest.drop (fragmentLen space rest.length)) := by
            intro hmore
            have hleft := List.length_pos_iff.mpr hmore
            exact hthis.drop hle (fragmentLen_aligned (by omega))
          obtain ⟨hpieces, hmake⟩ := ih hnext (hspace.imp_right fun h => by omega) hrec
          have hfront : (rest.take (fragmentLen space rest.length)).length ≤ space :=
            (List.length_take_le _ _).trans (fragmentLen_le_space space rest.length)
          refine ⟨List.forall_mem_cons.mpr ⟨⟨hpiece, hfront⟩, hpieces⟩, fun hok => ?_⟩
          have hrange := hmake hok
          have hsum : offset + fragmentLen space rest.length +
              (rest.drop (fragmentLen space rest.length)).length = offset + rest.length := by
            omega
          rw [hsum] at hrange
          have hoff := p.offset_fragmentAt (decide (0 < rest.length -
            fragmentLen space rest.length) || p.moreFragments)
            (rest.take (fragmentLen space rest.length)) hthis.offset_lt hthis.start
          refine hrange.cons hoff ?_ (by omega)
          show (p.fragmentAt _ _ _).offset + (rest.take _).length = _
          rw [hoff, List.length_take, Nat.min_eq_left hle]
        next =>
          cases hrun
          exact ⟨nofun, nofun⟩

/-- A packet that is no fragment is the whole datagram. -/
theorem IpPacket.whole_of_not_fragment (h : p.ipIsFragment = false) :
    p.offset = 0 ∧ p.moreFragments = false := by
  have hmask : ipMf ||| ipOffsetMask = 2 ^ 14 - 1 := rfl
  rw [IpPacket.ipIsFragment, hmask, Nat.and_two_pow_sub_one_eq_mod, bne_eq_false_iff_eq] at h
  refine ⟨?_, ?_⟩
  · rw [p.offset_eq]
    omega
  · have hbit : p.fragOff.testBit 13 = false := by
      have hmod := Nat.testBit_mod_two_pow p.fragOff 14 13
      rw [h, Nat.zero_testBit] at hmod
      simpa using hmod.symm
    rw [moreFragments, show ipMf = 2 ^ 13 from rfl, Nat.and_two_pow, hbit]
    rfl

/-- What the skbs of a frag list are sent as are pieces that fit, and all of it at the end. -/
theorem fastPath_pieces (hp : PieceOf D p) (hmore : p.moreFragments = false) {space hlen : ℕ}
    {output : ℕ → Bool} {round : ℕ} {frags : List FragListSkb} (hne : ∀ f ∈ frags, f.data ≠ [])
    (hfits : fragListFits space hlen frags = true)
    (hrest : frags ≠ [] → RestOf D p offset (frags.flatMap (·.data)))
    {sent : List IpPacket} {e : FragmentEnd}
    (hrun : fastPath p output round offset frags = (sent, e)) :
    (∀ q ∈ sent, PieceOf D q ∧ q.payload.length ≤ space) ∧
      (e = .ok → MakeUp sent offset (offset + (frags.flatMap (·.data)).length)) := by
  induction frags generalizing round offset sent e with
  | nil =>
      cases hrun
      exact ⟨nofun, fun _ => makeUp_nil offset⟩
  | cons frag rest ih =>
      have hthis := hrest (List.cons_ne_nil _ _)
      rw [List.flatMap_cons] at hthis ⊢
      simp only [fragListFits, Bool.and_eq_true, decide_eq_true_eq, Bool.or_eq_true,
        beq_iff_eq] at hfits
      obtain ⟨⟨⟨⟨hspace, haligned⟩, -⟩, -⟩, hfitsRest⟩ := hfits
      have hpos : 0 < frag.data.length :=
        List.length_pos_iff.mpr (hne frag List.mem_cons_self)
      have hle : frag.data.length ≤ (frag.data ++ rest.flatMap (·.data)).length := by
        rw [List.length_append]
        omega
      have hempty : rest.isEmpty = true ↔ (rest.flatMap (·.data)).length = 0 := by
        rw [List.isEmpty_iff, List.length_eq_zero_iff, List.flatMap_eq_nil_iff]
        refine ⟨fun h => by simp [h], fun h => ?_⟩
        by_contra hcons
        obtain ⟨f, hf⟩ := List.exists_mem_of_ne_nil _ hcons
        exact hne f (List.mem_cons_of_mem _ hf) (h f hf)
      have h8 : frag.data.length < (frag.data ++ rest.flatMap (·.data)).length →
          frag.data.length % 8 = 0 := by
        intro hlt
        rw [List.length_append] at hlt
        refine haligned.resolve_right fun h => ?_
        have hzero := hempty.mp h
        omega
      have hlast : (!rest.isEmpty) = (decide (0 < (frag.data ++ rest.flatMap (·.data)).length -
          frag.data.length) || p.moreFragments) := by
        rw [hmore, Bool.or_false, List.length_append, Nat.add_sub_cancel_left, Bool.eq_iff_iff]
        simp only [Bool.not_eq_true', ← Bool.not_eq_true, hempty, decide_eq_true_eq]
        omega
      have hpiece := hthis.piece hp hpos hle h8
      rw [← hlast, List.take_left] at hpiece
      have hnext : rest ≠ [] →
          RestOf D p (offset + frag.data.length) (rest.flatMap (·.data)) := by
        intro hcons
        have hnonempty : (rest.flatMap (·.data)).length ≠ 0 := by
          rw [Ne, ← hempty, List.isEmpty_iff]
          exact hcons
        have hdrop := hthis.drop hle (h8 (by rw [List.length_append]; omega))
        rwa [List.drop_left] at hdrop
      rw [fastPath] at hrun
      split at hrun
      next hanswer =>
        cases hrun
        obtain ⟨hpieces, hmake⟩ := ih (fun f hf => hne f (List.mem_cons_of_mem _ hf)) hfitsRest
          hnext rfl
        refine ⟨List.forall_mem_cons.mpr ⟨⟨hpiece, hspace⟩, hpieces⟩, fun hok => ?_⟩
        have hrange := hmake hok
        rw [Nat.add_assoc] at hrange
        rw [List.length_append]
        have hoff := p.offset_fragmentAt (!rest.isEmpty) frag.data hthis.offset_lt hthis.start
        refine hrange.cons hoff ?_ (by omega)
        show (p.fragmentAt _ _ _).offset + frag.data.length = _
        rw [hoff]
      next =>
        cases hrun
        exact ⟨nofun, nofun⟩

end Pieces

/-! ## The whole function -/

structure IpSkb.Proper (s : IpSkb) : Prop where
  first : s.first ≠ []
  fragList : ∀ frag ∈ s.fragList, frag.data ≠ []

/-- The rest of a datagram can be sent: eight bytes fit, or all of it. -/
def IpSkb.Fits (s : IpSkb) (mtu : ℕ) : Prop :=
  8 ≤ dataSpace mtu s.hlen ∨ s.packet.payload.length ≤ dataSpace mtu s.hlen

section Whole

variable {room : ℕ → ℕ} {D : IpDatagram} {s : IpSkb} {mtu : ℕ} {env : FragmentEnv} {fuel : ℕ}
  {sent : List IpPacket} {e : FragmentEnd}

/-- Whatever room there is, what is sent of a piece of a datagram are pieces of the datagram, and
the normal end leaves nothing out. -/
theorem ipFragmentIn_pieces (hp : PieceOf D s.packet) (hs : s.Proper) (hfits : s.Fits mtu)
    (hrun : ipFragmentIn room s mtu env fuel = some (sent, e)) :
    (∀ q ∈ sent, PieceOf D q ∧ q.payload.length ≤ dataSpace mtu s.hlen) ∧
      (e = .ok → MakeUp sent s.packet.offset s.packet.extent.stop) := by
  have hrest := hp.restOf
  unfold ipFragmentIn at hrun
  split at hrun
  next =>
    cases hrun
    exact ⟨List.forall_mem_nil _, fun h => by cases h⟩
  next =>
    dsimp only at hrun
    split at hrun
    next hfast =>
      simp only [IpSkb.fastPathOk, Bool.and_eq_true, decide_eq_true_eq, beq_iff_eq,
        Bool.not_eq_true'] at hfast
      obtain ⟨⟨⟨⟨⟨hlist, hspace⟩, h8⟩, hwhole⟩, -⟩, hgeometry⟩ := hfast
      obtain ⟨hzero, hmore⟩ := IpPacket.whole_of_not_fragment hwhole
      have hpos : 0 < s.first.length := List.length_pos_iff.mpr hs.first
      have hpayload : s.packet.payload = s.first ++ s.fragList.flatMap (·.data) := rfl
      have hcons : s.fragList ≠ [] := by
        intro h
        rw [h] at hlist
        cases hlist
      have hbehind : 0 < (s.fragList.flatMap (·.data)).length := by
        obtain ⟨frag, hmem⟩ := List.exists_mem_of_ne_nil _ hcons
        refine List.length_pos_iff.mpr fun h => ?_
        exact hs.fragList frag hmem (List.flatMap_eq_nil_iff.mp h frag hmem)
      have hle : s.first.length ≤ s.packet.payload.length := by
        rw [hpayload, List.length_append]
        omega
      rw [hzero] at hrest
      have hpiece := hrest.piece hp hpos hle fun _ => h8
      have hdrop := hrest.drop hle h8
      have htrue : (decide (0 < s.packet.payload.length - s.first.length) ||
          s.packet.moreFragments) = true := by
        rw [hpayload, List.length_append, Nat.add_sub_cancel_left, Bool.or_eq_true]
        exact .inl (decide_eq_true hbehind)
      rw [htrue, hpayload, List.take_left] at hpiece
      rw [hpayload, List.drop_left, Nat.zero_add] at hdrop
      split at hrun
      next =>
        cases hrun
        have hlist : fastPath s.packet env.output 1 s.first.length s.fragList = _ := rfl
        obtain ⟨hpieces, hmake⟩ := fastPath_pieces hp hmore hs.fragList hgeometry
          (fun _ => hdrop) hlist
        refine ⟨List.forall_mem_cons.mpr ⟨⟨hpiece, hspace⟩, hpieces⟩, fun hok => ?_⟩
        have hrange := hmake hok
        have hoff := s.packet.offset_fragmentAt true s.first (o := 0) (by decide) rfl
        have hstop : s.packet.extent.stop =
            s.first.length + (s.fragList.flatMap (·.data)).length := by
          rw [Extent.stop, IpPacket.extent, hzero, hpayload, List.length_append, Nat.zero_add]
        rw [hzero, hstop]
        refine hrange.cons hoff ?_ (by omega)
        show (s.packet.fragmentAt _ _ _).offset + s.first.length = _
        rw [hoff, Nat.zero_add]
      next =>
        cases hrun
        exact ⟨List.forall_mem_nil _, fun h => by cases h⟩
    next =>
      split at hrun
      next => exact slowPath_pieces hp (fun _ => hrest) hfits hrun
      next =>
        cases hrun
        exact ⟨List.forall_mem_nil _, fun h => by cases h⟩

theorem slowPath_ne_checksum {p : IpPacket} {space round offset : ℕ} {rest : List UInt8}
    (hrun : slowPath room p space env fuel round offset rest = some (sent, e)) :
    e ≠ .checksum := by
  induction fuel generalizing round offset rest sent e with
  | zero => cases hrun
  | succ fuel ih =>
      rw [slowPath] at hrun
      dsimp only at hrun
      split at hrun
      next =>
        cases hrun
        exact nofun
      split at hrun
      next =>
        cases hrun
        exact nofun
      split at hrun
      next =>
        cases hrun
        exact nofun
      split at hrun
      next =>
        obtain ⟨⟨sent', e'⟩, hrec, heq⟩ := Option.map_eq_some_iff.mp hrun
        cases heq
        exact ih hrec
      next =>
        cases hrun
        exact nofun

theorem fastPath_end (p : IpPacket) (output : ℕ → Bool) (round offset : ℕ)
    (frags : List FragListSkb) : (fastPath p output round offset frags).2 = .ok ∨
      (fastPath p output round offset frags).2 = .failed := by
  induction frags generalizing round offset with
  | nil => exact .inl rfl
  | cons frag rest ih =>
      rw [fastPath]
      split
      · exact ih _ _
      · exact .inr rfl

/-- A checksum that cannot be filled in leaves nothing sent. -/
theorem ipFragmentIn_checksum (hrun : ipFragmentIn room s mtu env fuel = some (sent, .checksum)) :
    env.checksumHelp = false ∧ sent = [] := by
  unfold ipFragmentIn at hrun
  dsimp only at hrun
  split at hrun
  next => cases hrun
  split at hrun
  next =>
    split at hrun
    next =>
      have hend := fastPath_end s.packet env.output 1 s.first.length s.fragList
      obtain ⟨-, hchecksum⟩ := Prod.mk.inj (Option.some.inj hrun)
      rw [hchecksum] at hend
      rcases hend with hend | hend <;> cases hend
    next => cases hrun
  split at hrun
  next => exact absurd rfl (slowPath_ne_checksum hrun)
  next hhelp =>
    cases hrun
    exact ⟨Bool.eq_false_iff.mpr hhelp, rfl⟩

end Whole

/-- A datagram with sixteen bytes behind the header. -/
def sixteenBytes : IpDatagram where
  key := ⟨1, 2, 3, 17⟩
  tos := 0
  hlen := 20
  payload := [0, 1, 2, 3, 4, 5, 6, 7, 8, 9, 10, 11, 12, 13, 14, 15]
  nonempty := by decide
  fits := by decide

def sixteenSkb : IpSkb where
  key := sixteenBytes.key
  tos := 0
  fragOff := 0
  hlen := 20
  totLen := 36
  first := sixteenBytes.payload
  fragList := []
  cloned := false
  localDf := false
  fragMaxSize := 0

/-- Half of it, with or without more to come. -/
def eightBytes (offset : ℕ) (more : Bool) : IpPacket :=
  sixteenSkb.packet.fragmentAt offset more ((sixteenBytes.payload.drop offset).take 8)

theorem sixteenSkb_proper : sixteenSkb.Proper := ⟨by decide, nofun⟩

theorem sixteenBytes_piece : PieceOf sixteenBytes sixteenSkb.packet where
  key := rfl
  tos := rfl
  hlen := rfl
  nonempty := by decide
  slice := by decide
  within := by decide
  more := by decide
  aligned := by decide

/-- Nothing fails, and the device asks for sixteen bytes in front of a frame. -/
def willingEnv : FragmentEnv := ⟨16, true, fun _ => true, fun _ => true⟩

theorem ipFragment_sixteenSkb :
    ipFragment sixteenSkb 28 willingEnv 3 =
      some ([eightBytes 0 true, eightBytes 8 false], .ok) := by decide

/-- What is left in front of round `i` of the slow path. -/
def leftAt (space n : ℕ) : ℕ → ℕ
  | 0 => n
  | i + 1 => leftAt space n i - fragmentLen space (leftAt space n i)

theorem leftAt_succ (space n i : ℕ) :
    leftAt space n (i + 1) = leftAt space (n - fragmentLen space n) i := by
  induction i with
  | zero => rfl
  | succ i ih => rw [leftAt, ih, ← leftAt]

/-- The skb of a round with `left` bytes to go cannot hold the fragment. -/
def Overruns (room : ℕ → ℕ) (space hlen llRs left : ℕ) : Prop :=
  left ≠ 0 ∧ room (fragmentLen space left + hlen + llRs) < llRs + (fragmentLen space left + hlen)

section Ends

variable {room : ℕ → ℕ} {p : IpPacket} {s : IpSkb} {mtu space : ℕ} {env : FragmentEnv} {fuel : ℕ}

/-- With fewer than eight bytes of room and more to send, no round makes progress. -/
theorem slowPath_eq_none (hspace : space < 8) {rest : List UInt8} (hlong : space < rest.length)
    (hroom : ¬ room (p.hlen + env.llRs) < env.llRs + p.hlen) {round : ℕ}
    (hanswer : ∀ i, round ≤ i → env.alloc i = true ∧ env.output i = true) (offset : ℕ) :
    slowPath room p space env fuel round offset rest = none := by
  induction fuel generalizing round offset with
  | zero => rfl
  | succ fuel ih =>
      have hzero : fragmentLen space rest.length = 0 := by
        have hpos : 0 < fragmentLen space rest.length ↔ 8 ≤ space ∨ rest.length ≤ space :=
          fragmentLen_pos_iff (by omega)
        omega
      obtain ⟨halloc, houtput⟩ := hanswer round le_rfl
      rw [slowPath, if_neg (by omega)]
      dsimp only
      rw [hzero, Nat.zero_add, if_neg (by rw [halloc]; exact Bool.false_ne_true), if_neg hroom,
        if_pos houtput, List.drop_zero, ih (fun i hi => hanswer i (by omega)) _]
      rfl

/-- A failure ends the loop, if nothing did before. -/
theorem slowPath_isSome_of_failure {round i : ℕ} (hround : round ≤ i)
    (hanswer : env.alloc i = false ∨ env.output i = false) (offset : ℕ) (rest : List UInt8) :
    (slowPath room p space env (i - round + 1) round offset rest).isSome := by
  generalize hn : i - round = n
  induction n generalizing round offset rest with
  | zero =>
      obtain rfl : round = i := by omega
      rw [slowPath]
      dsimp only
      split
      · rfl
      split
      · rfl
      next halloc =>
        split
        · rfl
        · have houtput := hanswer.resolve_left fun h => halloc (by rw [h]; rfl)
          rw [houtput]
          rfl
  | succ n ih =>
      rw [slowPath]
      dsimp only
      split
      · rfl
      split
      · rfl
      split
      · rfl
      split
      · rw [Option.isSome_map]
        exact ih (by omega) _ _ (by omega)
      · rfl

/-- Rounds that make progress come to an end. -/
theorem slowPath_isSome_of_space {rest : List UInt8} (hspace : 8 ≤ space ∨ rest.length ≤ space)
    {round offset : ℕ} (hfuel : rest.length < fuel) :
    (slowPath room p space env fuel round offset rest).isSome := by
  induction fuel generalizing round offset rest with
  | zero => omega
  | succ fuel ih =>
      rw [slowPath]
      dsimp only
      split
      next => rfl
      next hne =>
        have hpos := (fragmentLen_pos_iff (Nat.pos_of_ne_zero hne)).mpr hspace
        have hlen : (rest.drop (fragmentLen space rest.length)).length =
            rest.length - fragmentLen space rest.length := List.length_drop
        split
        · rfl
        split
        · rfl
        split
        · rw [Option.isSome_map]
          exact ih (by omega) (by omega)
        · rfl

/-- An skb that is too small for an empty fragment ends the loop at once. -/
theorem slowPath_isSome_of_small (hspace : space < 8) {rest : List UInt8}
    (hlong : space < rest.length) (hroom : room (p.hlen + env.llRs) < env.llRs + p.hlen)
    (round offset : ℕ) : (slowPath room p space env 1 round offset rest).isSome := by
  have hzero : fragmentLen space rest.length = 0 := by
    have hpos : 0 < fragmentLen space rest.length ↔ 8 ≤ space ∨ rest.length ≤ space :=
      fragmentLen_pos_iff (by omega)
    omega
  rw [slowPath, if_neg (by omega)]
  dsimp only
  rw [hzero, Nat.zero_add, if_pos hroom]
  split <;> rfl

/-- A loop that stops in `skb_put` has come to a fragment that its skb cannot hold. -/
theorem exists_overruns_of_slowPath {fuel round offset : ℕ} {rest : List UInt8}
    {sent : List IpPacket}
    (hrun : slowPath room p space env fuel round offset rest = some (sent, .overrun)) :
    ∃ i, Overruns room space p.hlen env.llRs (leftAt space rest.length i) ∧
      env.alloc (round + i) = true ∧
        ∀ j < i, env.alloc (round + j) = true ∧ env.output (round + j) = true := by
  induction fuel generalizing round offset rest sent with
  | zero => cases hrun
  | succ fuel ih =>
      rw [slowPath] at hrun
      dsimp only at hrun
      split at hrun
      next => cases hrun
      next hne =>
      split at hrun
      next => cases hrun
      next halloc =>
      rw [Bool.not_eq_true', Bool.not_eq_false] at halloc
      split at hrun
      next hroom => exact ⟨0, ⟨hne, hroom⟩, halloc, nofun⟩
      split at hrun
      next houtput =>
        obtain ⟨⟨sent', e'⟩, hrec, heq⟩ := Option.map_eq_some_iff.mp hrun
        cases heq
        obtain ⟨i, hover, hat, hbefore⟩ := ih hrec
        rw [List.length_drop, ← leftAt_succ] at hover
        refine ⟨i + 1, hover, ?_, fun j hj => ?_⟩
        · rw [← Nat.add_assoc, Nat.add_right_comm]
          exact hat
        · cases j with
          | zero => exact ⟨halloc, houtput⟩
          | succ j =>
              rw [← Nat.add_assoc, Nat.add_right_comm]
              exact hbefore j (by omega)
      next => cases hrun

/-- Once nothing is left, nothing is left in later rounds. -/
theorem leftAt_nothing (space n : ℕ) : leftAt space 0 n = 0 := by
  induction n with
  | zero => rfl
  | succ n ih => rw [leftAt, ih, Nat.zero_sub]

/-- The loop comes to round `i` if the rounds before succeed, and stops there, or before. -/
theorem slowPath_overrun_of_overruns {i round offset : ℕ} {rest : List UInt8}
    (hover : Overruns room space p.hlen env.llRs (leftAt space rest.length i))
    (hat : env.alloc (round + i) = true)
    (hbefore : ∀ j < i, env.alloc (round + j) = true ∧ env.output (round + j) = true) :
    ∃ fuel sent, slowPath room p space env fuel round offset rest = some (sent, .overrun) := by
  induction i generalizing round offset rest with
  | zero =>
      obtain ⟨hne, hroom⟩ := hover
      refine ⟨1, [], ?_⟩
      rw [slowPath, if_neg (show ¬ rest.length = 0 from hne)]
      dsimp only
      rw [if_neg (by rw [show env.alloc round = true from hat]; exact Bool.false_ne_true)]
      exact if_pos hroom
  | succ i ih =>
      obtain ⟨halloc, houtput⟩ := hbefore 0 (Nat.succ_pos i)
      rw [Nat.add_zero] at halloc houtput
      have hne : ¬ rest.length = 0 := by
        intro hzero
        rw [hzero] at hover
        exact hover.1 (leftAt_nothing space _)
      by_cases hroom : room (fragmentLen space rest.length + p.hlen + env.llRs) <
          env.llRs + (fragmentLen space rest.length + p.hlen)
      · refine ⟨1, [], ?_⟩
        rw [slowPath, if_neg hne]
        dsimp only
        rw [if_neg (by rw [halloc]; exact Bool.false_ne_true), if_pos hroom]
      · rw [leftAt_succ, ← List.length_drop] at hover
        have hat' : env.alloc (round + 1 + i) = true := by
          rw [Nat.add_assoc, Nat.add_comm 1 i]
          exact hat
        have hbefore' : ∀ j < i,
            env.alloc (round + 1 + j) = true ∧ env.output (round + 1 + j) = true := by
          intro j hj
          rw [Nat.add_assoc, Nat.add_comm 1 j]
          exact hbefore (j + 1) (by omega)
        obtain ⟨fuel, sent, hrun⟩ :=
          @ih (round + 1) (offset + fragmentLen space rest.length) _ hover hat' hbefore'
        refine ⟨fuel + 1, p.fragmentAt offset
          (decide (0 < rest.length - fragmentLen space rest.length) || p.moreFragments)
          (rest.take (fragmentLen space rest.length)) :: sent, ?_⟩
        rw [slowPath, if_neg hne]
        dsimp only
        rw [if_neg (by rw [halloc]; exact Bool.false_ne_true), if_neg hroom, if_pos houtput, hrun]
        rfl

/-- The loop stops in `skb_put` when it comes to a fragment that its skb cannot hold. -/
theorem slowPath_overrun_iff {round offset : ℕ} {rest : List UInt8} :
    (∃ fuel sent, slowPath room p space env fuel round offset rest = some (sent, .overrun)) ↔
      ∃ i, Overruns room space p.hlen env.llRs (leftAt space rest.length i) ∧
        env.alloc (round + i) = true ∧
          ∀ j < i, env.alloc (round + j) = true ∧ env.output (round + j) = true := by
  constructor
  · rintro ⟨fuel, sent, hrun⟩
    exact exists_overruns_of_slowPath hrun
  · rintro ⟨i, hover, hat, hbefore⟩
    exact slowPath_overrun_of_overruns hover hat hbefore

theorem ipFragmentIn_of_slow (hrefused : ¬ s.Refused mtu)
    (hfast : s.fastPathOk (dataSpace mtu s.hlen) = false) (hhelp : env.checksumHelp = true)
    (fuel : ℕ) : ipFragmentIn room s mtu env fuel = slowPath room s.packet (dataSpace mtu s.hlen)
      env fuel 0 s.packet.offset s.packet.payload := by
  rw [ipFragmentIn, if_neg hrefused]
  dsimp only
  rw [hfast, hhelp]
  rfl

/-- The slow path comes to an end where eight bytes of data fit, or where something fails. -/
theorem ipFragmentIn_isSome_iff (hs : s.Proper) :
    (∃ fuel, (ipFragmentIn room s mtu env fuel).isSome) ↔
      s.Fits mtu ∨ s.Refused mtu ∨ env.checksumHelp = false ∨
        (∃ i, env.alloc i = false ∨ env.output i = false) ∨
          room (s.hlen + env.llRs) < env.llRs + s.hlen := by
  by_cases hrefused : s.Refused mtu
  · refine iff_of_true ⟨0, ?_⟩ (.inr (.inl hrefused))
    rw [ipFragmentIn, if_pos hrefused]
    rfl
  by_cases hfast : s.fastPathOk (dataSpace mtu s.hlen) = true
  · have hfits : s.Fits mtu := by
      have hpos : 0 < s.first.length := List.length_pos_iff.mpr hs.first
      have hparts := hfast
      simp only [IpSkb.fastPathOk, Bool.and_eq_true, decide_eq_true_eq, beq_iff_eq] at hparts
      obtain ⟨⟨⟨⟨⟨-, hspace⟩, h8⟩, -⟩, -⟩, -⟩ := hparts
      exact .inl (by omega)
    refine iff_of_true ⟨0, ?_⟩ (.inl hfits)
    rw [ipFragmentIn, if_neg hrefused]
    dsimp only
    rw [if_pos hfast]
    split <;> rfl
  cases hhelp : env.checksumHelp with
  | false =>
      refine iff_of_true ⟨0, ?_⟩ (.inr (.inr (.inl rfl)))
      rw [ipFragmentIn, if_neg hrefused]
      dsimp only
      rw [if_neg hfast, hhelp]
      rfl
  | true =>
      simp only [ipFragmentIn_of_slow hrefused (Bool.eq_false_iff.mpr hfast) hhelp, hrefused,
        false_or, Bool.true_eq_false]
      constructor
      · rintro ⟨fuel, hrun⟩
        by_contra hnever
        simp only [not_or, not_exists, IpSkb.Fits, Nat.not_le, Bool.not_eq_false] at hnever
        obtain ⟨⟨hspace, hlong⟩, hall, hroom⟩ := hnever
        rw [slowPath_eq_none hspace hlong hroom fun i _ => hall i] at hrun
        cases hrun
      · intro hcase
        by_cases hfits : s.Fits mtu
        · exact ⟨_, slowPath_isSome_of_space hfits (Nat.lt_succ_self _)⟩
        rcases hcase.resolve_left hfits with ⟨i, hi⟩ | hroom
        · exact ⟨_, slowPath_isSome_of_failure (Nat.zero_le i) hi _ _⟩
        · simp only [IpSkb.Fits, not_or, Nat.not_le] at hfits
          exact ⟨1, slowPath_isSome_of_small hfits.1 hfits.2 hroom _ _⟩

/-- It stops in `skb_put` on the slow path only. -/
theorem ipFragmentIn_overrun_iff :
    (∃ fuel sent, ipFragmentIn room s mtu env fuel = some (sent, .overrun)) ↔
      ¬ s.Refused mtu ∧ s.fastPathOk (dataSpace mtu s.hlen) = false ∧ env.checksumHelp = true ∧
        ∃ i, Overruns room (dataSpace mtu s.hlen) s.hlen env.llRs
            (leftAt (dataSpace mtu s.hlen) s.packet.payload.length i) ∧
          env.alloc i = true ∧ ∀ j < i, env.alloc j = true ∧ env.output j = true := by
  have hslow := @slowPath_overrun_iff room s.packet (dataSpace mtu s.hlen) env 0 s.packet.offset
    s.packet.payload
  simp only [Nat.zero_add] at hslow
  by_cases hrefused : s.Refused mtu
  · refine iff_of_false ?_ fun h => h.1 hrefused
    rintro ⟨fuel, sent, hrun⟩
    rw [ipFragmentIn, if_pos hrefused] at hrun
    cases hrun
  rw [and_iff_right hrefused]
  cases hfast : s.fastPathOk (dataSpace mtu s.hlen) with
  | true =>
      refine iff_of_false ?_ fun h => by cases h.1
      rintro ⟨fuel, sent, hrun⟩
      rw [ipFragmentIn, if_neg hrefused] at hrun
      dsimp only at hrun
      rw [if_pos hfast] at hrun
      split at hrun
      next =>
        have hend := fastPath_end s.packet env.output 1 s.first.length s.fragList
        obtain ⟨-, hover⟩ := Prod.mk.inj (Option.some.inj hrun)
        rw [hover] at hend
        rcases hend with hend | hend <;> cases hend
      next => cases hrun
  | false =>
      cases hhelp : env.checksumHelp with
      | false =>
          refine iff_of_false ?_ fun h => by cases h.2.1
          rintro ⟨fuel, sent, hrun⟩
          rw [ipFragmentIn, if_neg hrefused] at hrun
          dsimp only at hrun
          rw [hfast, hhelp] at hrun
          cases hrun
      | true =>
          simp only [ipFragmentIn_of_slow hrefused hfast hhelp, true_and]
          exact hslow

/-- A datagram that is larger than an Ethernet frame. -/
def largeSkb : IpSkb := { sixteenSkb with totLen := 2020, first := List.replicate 2000 0 }

theorem largeSkb_proper : largeSkb.Proper := ⟨List.cons_ne_nil _ _, nofun⟩

end Ends

end IpAugenblick
