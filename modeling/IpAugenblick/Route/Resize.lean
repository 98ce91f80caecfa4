/-
# Resizing a node

`inflate` gives each child two slots, where a child that looks at the next bit is cut in two;
`halve` joins the slots in pairs again.  Both resize the nodes that they make.  Each is followed
slot by slot; a node that has been resized has the leaves it had.
-/

import IpAugenblick.Route.Balance

namespace IpAugenblick.FibTrie

open Lib Lib.BitKey Lib.Slots

universe u

variable {α : Type u} {tn old : Tnode α} {n x y : Node α} {resize : Tnode α → Memory → Node α}
  {mem : Memory} {i j k q : ℕ}

/-- What a node is resized to. -/
structure ResizedTo (tn : Tnode α) (n : Node α) : Prop where
  kept : n.Kept
  leaves : n.leaves = tn.node.leaves
  behind : n.From tn.pos

/-- What is assumed of `resize` for the nodes behind a position. -/
def Resizes (q : ℕ) (resize : Tnode α → Memory → Node α) : Prop :=
  ∀ tn mem, tn.Ok → q ≤ tn.pos → ResizedTo tn (resize tn mem)

/-- What `inflate` makes of a child: what it puts into the two slots. -/
structure Cut (old : Tnode α) (i : ℕ) (x y : Node α) : Prop where
  fitsLeft : FitsIn old.key old.pos (old.bits + 1) (2 * i) x
  fitsRight : FitsIn old.key old.pos (old.bits + 1) (2 * i + 1) y
  keptLeft : x.Kept
  keptRight : y.Kept
  leaves : x.leaves ++ y.leaves = (old.child i).leaves

/-- What `inflate` has allocated for a slot. -/
def inflateSlot (old : Tnode α) (j : ℕ) : Node α :=
  match old.child (j / 2) with
  | .tnode inode _ =>
      if inode.pos = old.pos + old.bits ∧ 1 < inode.bits then
        let m := (~~~(0 : TKey) <<< 31) >>> inode.pos
        (tnodeNew (if j % 2 = 0 then inode.key &&& ~~~m else inode.key ||| m) (inode.pos + 1)
          (inode.bits - 1)).node
      else .null
  | _ => .null

/-- `inflate` has come to child `k`. -/
structure Inflating (old : Tnode α) (k : ℕ) (tn : Tnode α) : Prop where
  key : tn.key = old.key
  pos : tn.pos = old.pos
  bits : tn.bits = old.bits + 1
  counted : tn.Counted
  cut : ∀ i < k, Cut old i (tn.child (2 * i)) (tn.child (2 * i + 1))
  rest : ∀ j, 2 * k ≤ j → j < 2 * 2 ^ old.bits → tn.child j = inflateSlot old j

theorem two_mul_slot (hi : i < 2 ^ old.bits) (hbits : tn.bits = old.bits + 1) :
    2 * i < 2 ^ tn.bits ∧ 2 * i + 1 < 2 ^ tn.bits := by
  rw [hbits, Nat.pow_succ]
  omega

/-- The allocations have been made. -/
theorem inflatePrealloc_spec (hk : k ≤ 2 ^ old.bits)
    (hrun : inflatePrealloc old mem (tnodeNew old.key old.pos (old.bits + 1)) k = some tn) :
    tn.key = old.key ∧ tn.pos = old.pos ∧ tn.bits = old.bits + 1 ∧ tn.Counted ∧
      ∀ j, tn.child j = if j < 2 * k then inflateSlot old j else .null := by
  induction k generalizing tn with
  | zero =>
      cases hrun
      refine ⟨rfl, rfl, rfl, tnodeNew_counted _ _ _, fun j => ?_⟩
      rw [if_neg (by omega)]
      rfl
  | succ k ih =>
      obtain ⟨before, hbefore, hrun⟩ := Option.bind_eq_some_iff.mp hrun
      obtain ⟨hkey, hpos, hbits, hcounted, hchild⟩ := ih (Nat.le_of_succ_le hk) hbefore
      have heven : 2 * k / 2 = k := by omega
      have hodd : (2 * k + 1) / 2 = k := by omega
      -- a child that stays in one piece has nothing allocated
      have hkeep : inflateSlot old (2 * k) = .null → inflateSlot old (2 * k + 1) = .null →
          ∀ j, before.child j = if j < 2 * (k + 1) then inflateSlot old j else .null := by
        intro hleft hright j
        rw [hchild]
        by_cases hj : j < 2 * k
        · rw [if_pos hj, if_pos (by omega)]
        · rw [if_neg hj]
          by_cases hj' : j < 2 * (k + 1)
          · rw [if_pos hj']
            rcases (show j = 2 * k ∨ j = 2 * k + 1 by omega) with rfl | rfl
            · exact hleft.symm
            · exact hright.symm
          · rw [if_neg hj']
      cases hold : old.child k with
      | null | leaf =>
          rw [hold] at hrun
          cases hrun
          refine ⟨hkey, hpos, hbits, hcounted, hkeep ?_ ?_⟩
          · rw [inflateSlot, heven, hold]
          · rw [inflateSlot, hodd, hold]
      | tnode inode child =>
          rw [hold] at hrun
          dsimp only at hrun
          split at hrun
          next hsplit =>
            split at hrun
            next =>
              cases hrun
              obtain ⟨hleft, hright⟩ := two_mul_slot (Nat.lt_of_succ_le hk) hbits
              refine ⟨hkey, hpos, hbits, (hcounted.putChild hleft _).putChild hright _,
                fun j => ?_⟩
              by_cases hjr : j = 2 * k + 1
              · rw [hjr, putChild_child_self, if_pos (by omega), inflateSlot, hodd, hold]
                dsimp only
                rw [if_pos hsplit, if_neg (by omega)]
              · rw [putChild_child_of_ne _ _ hjr]
                by_cases hjl : j = 2 * k
                · rw [hjl, putChild_child_self, if_pos (by omega), inflateSlot, heven, hold]
                  dsimp only
                  rw [if_pos hsplit, if_pos (by omega)]
                · rw [putChild_child_of_ne _ _ hjl, hchild]
                  by_cases hj : j < 2 * k
                  · rw [if_pos hj, if_pos (by omega)]
                  · rw [if_neg hj, if_neg (by omega)]
            next => cases hrun
          next hsplit =>
            cases hrun
            refine ⟨hkey, hpos, hbits, hcounted, hkeep ?_ ?_⟩
            · rw [inflateSlot, heven, hold]
              exact if_neg hsplit
            · rw [inflateSlot, hodd, hold]
              exact if_neg hsplit

/-- The slots of one child have been written. -/
theorem Inflating.succ {next : Tnode α} (hs : Inflating old i tn) (hkey : next.key = tn.key)
    (hpos : next.pos = tn.pos) (hbits : next.bits = tn.bits) (hcounted : next.Counted)
    (hchild : ∀ j, j ≠ 2 * i → j ≠ 2 * i + 1 → next.child j = tn.child j)
    (hcut : Cut old i (next.child (2 * i)) (next.child (2 * i + 1))) :
    Inflating old (i + 1) next where
  key := hkey.trans hs.key
  pos := hpos.trans hs.pos
  bits := hbits.trans hs.bits
  counted := hcounted
  cut m hm := by
    rcases Nat.lt_succ_iff_lt_or_eq.mp hm with hlt | rfl
    · rw [hchild _ (by omega) (by omega), hchild _ (by omega) (by omega)]
      exact hs.cut m hlt
    · exact hcut
  rest j hle hlt := by
    rw [hchild _ (by omega) (by omega)]
    exact hs.rest j (by omega) hlt

/-- A child that does not look at the next bit goes to the slot that its key says. -/
theorem FitsIn.whole {key : TKey} {pos bits : ℕ} (hfits : FitsIn key pos bits i n) (hn : n.Kept)
    (hfrom : n.From (pos + (bits + 1))) :
    FitsIn key pos (bits + 1) (field n.key pos (bits + 1)) n where
  keys l hl := ⟨(hfits.keys l hl).1, (hn.agree_key hfrom hl).field_eq le_rfl⟩
  behind := hfrom

/-- The keys below one half of a child that looks at the next bit. -/
theorem FitsIn.half {key half : TKey} {pos bits : ℕ} {b : Bool} (hfits : FitsIn key pos bits i n)
    (hsub : ∀ l ∈ x.leaves, l ∈ n.leaves) (hagree : ∀ l ∈ x.leaves, Agree l.1 half (pos + bits + 1))
    (hbit : half.getMsbD (pos + bits) = b) (hfrom : x.From (pos + bits + 1)) :
    FitsIn key pos (bits + 1) (2 * i + b.toNat) x where
  keys l hl := by
    obtain ⟨hl', hfield⟩ := hfits.keys l (hsub l hl)
    refine ⟨hl', ?_⟩
    rw [field_succ, hfield, hagree l hl _ (Nat.lt_succ_self _), hbit]
  behind := hfrom

/-- A child stays in one piece. -/
theorem Inflating.whole (hold : old.Ok) (hi : i < 2 ^ old.bits) (hwithin : old.pos + old.bits < 32)
    (hs : Inflating old i tn) (hthere : (old.child i).isNull = false)
    (hfrom : (old.child i).From (old.pos + (old.bits + 1)))
    (hleft : inflateSlot old (2 * i) = .null) (hright : inflateSlot old (2 * i + 1) = .null) :
    Inflating old (i + 1) (tn.putChild
      (tkeyExtractBits (old.child i).key old.pos (old.bits + 1)).toNat (old.child i)) := by
  have hfits := (hold.fits i hi).whole (hold.kept i hi) hfrom
  have hslot : field (old.child i).key old.pos (old.bits + 1) =
      2 * i + ((old.child i).key.getMsbD (old.pos + old.bits)).toNat := by
    rw [field_succ, ((hold.fits i hi).own_key (hold.kept i hi) hthere).2]
  obtain ⟨hltl, hltr⟩ := two_mul_slot hi hs.bits
  have hl := hs.rest (2 * i) le_rfl (by omega)
  have hr := hs.rest (2 * i + 1) (by omega) (by omega)
  rw [toNat_tkeyExtractBits _ (by omega), hslot]
  rw [hslot] at hfits
  cases hbit : (old.child i).key.getMsbD (old.pos + old.bits) with
  | false =>
      rw [hbit] at hfits
      apply hs.succ
      · rfl
      · rfl
      · rfl
      · exact hs.counted.putChild hltl _
      · exact fun j hjl _ => putChild_child_of_ne _ _ hjl
      · rw [Bool.toNat_false, Nat.add_zero, putChild_child_self,
          putChild_child_of_ne _ _ (Nat.succ_ne_self _), hr, hright]
        exact ⟨hfits, fitsIn_null, hold.kept i hi, trivial, List.append_nil _⟩
  | true =>
      rw [hbit] at hfits
      apply hs.succ
      · rfl
      · rfl
      · rfl
      · exact hs.counted.putChild hltr _
      · exact fun j _ hjr => putChild_child_of_ne _ _ hjr
      · rw [Bool.toNat_true, putChild_child_self,
          putChild_child_of_ne _ _ (Nat.succ_ne_self _).symm, hl, hleft]
        exact ⟨fitsIn_null, hfits, trivial, hold.kept i hi, List.nil_append _⟩

/-- Both slots of a child are written. -/
theorem Inflating.both (hi : i < 2 ^ old.bits) (hs : Inflating old i tn) {before : Tnode α}
    (hhead : before.key = tn.key ∧ before.pos = tn.pos ∧ before.bits = tn.bits)
    (hcounted : before.Counted)
    (hchild : ∀ j, j ≠ 2 * i → j ≠ 2 * i + 1 → before.child j = tn.child j)
    (hcut : Cut old i x y) :
    Inflating old (i + 1) ((before.putChild (2 * i) x).putChild (2 * i + 1) y) := by
  obtain ⟨hkey, hpos, hbits⟩ := hhead
  obtain ⟨hltl, hltr⟩ := two_mul_slot hi (hbits.trans hs.bits)
  apply hs.succ
  · exact hkey
  · exact hpos
  · exact hbits
  · exact (hcounted.putChild hltl _).putChild hltr _
  · intro j hjl hjr
    rw [putChild_child_of_ne _ _ hjr, putChild_child_of_ne _ _ hjl]
    exact hchild j hjl hjr
  · rwa [putChild_child_self, putChild_child_of_ne _ _ (Nat.succ_ne_self _).symm,
      putChild_child_self]

/-- A child that looks at the next bit only: its children take the slots. -/
theorem cut_of_one_bit {inode : TnodeHead} {child : ℕ → Node α} (hold : old.Ok)
    (hi : i < 2 ^ old.bits) (hchild : old.child i = .tnode inode child)
    (hpos : inode.pos = old.pos + old.bits) (hbits : inode.bits = 1) :
    Cut old i (child 0) (child 1) := by
  have hkept := hold.kept i hi
  have hfits := hold.fits i hi
  rw [hchild] at hkept hfits
  have hok := (kept_tnode.mp hkept).1
  have hslot : ∀ b : Bool, FitsIn old.key old.pos (old.bits + 1) (2 * i + b.toNat)
      (child b.toNat) := by
    intro b
    have hlt : b.toNat < 2 ^ inode.bits := by
      rw [hbits]
      exact Bool.toNat_lt b
    have hinner : FitsIn inode.key inode.pos inode.bits b.toNat (child b.toNat) := hok.fits _ hlt
    constructor
    · intro l hl
      obtain ⟨hl', hfield⟩ := hfits.keys l (mem_leaves_tnode.mpr ⟨_, hlt, hl⟩)
      have hbit := (hinner.keys l hl).2
      rw [hbits, field_succ, field_zero, hpos, Nat.mul_zero, Nat.zero_add, Nat.add_zero] at hbit
      refine ⟨hl', ?_⟩
      rw [field_succ, hfield, hbit]
    · have hbehind := hinner.behind
      rwa [hpos, hbits, Nat.add_assoc] at hbehind
  refine ⟨hslot false, hslot true, hok.kept 0 ?_, hok.kept 1 ?_, ?_⟩
  · exact Nat.two_pow_pos _
  · change 1 < 2 ^ inode.bits
    rw [hbits]
    exact Nat.one_lt_two
  · rw [hchild, Node.leaves, hbits]
    simp [List.range_succ]

/-- One half of a child that looks at more bits from the next one on is resized. -/
theorem half_resized {inode : TnodeHead} {child : ℕ → Node α} (half : TKey) (b : Bool)
    (hold : old.Ok) (hi : i < 2 ^ old.bits) (hchild : old.child i = .tnode inode child)
    (hpos : inode.pos = old.pos + old.bits) (hbits : 1 < inode.bits)
    (hresize : Resizes (old.pos + 1) resize) (hagree : Agree half inode.key inode.pos)
    (hbit : half.getMsbD inode.pos = b) (mem : Memory) {n : Node α}
    (hn : n = resize ((tnodeNew half (inode.pos + 1) (inode.bits - 1)).putChildren child
      (b.toNat * 2 ^ (inode.bits - 1)) (2 ^ (inode.bits - 1))) mem) :
    FitsIn old.key old.pos (old.bits + 1) (2 * i + b.toNat) n ∧ n.Kept ∧
      n.leaves = (List.range (2 ^ (inode.bits - 1))).flatMap fun j =>
        (child (j + b.toNat * 2 ^ (inode.bits - 1))).leaves := by
  have hkept := hold.kept i hi
  have hfits := hold.fits i hi
  rw [hchild] at hkept hfits
  have hok := (kept_tnode.mp hkept).1
  have hokh := halfNode_ok hok hbits hagree hbit
  have hres := hresize _ mem hokh (by rw [putChildren_pos, tnodeNew_pos, hpos]; omega)
  rw [← hn] at hres
  have hleaves := hres.leaves.trans (leaves_putChildren
    (tnodeNew half (inode.pos + 1) (inode.bits - 1)) child (b.toNat * 2 ^ (inode.bits - 1)))
  rw [tnodeNew_bits] at hleaves
  refine ⟨hfits.half ?_ ?_ (hpos ▸ hbit) ?_, hres.kept, hleaves⟩
  · intro l hl
    rw [hleaves, List.mem_flatMap] at hl
    obtain ⟨j, hj, hl⟩ := hl
    have hlt : j + b.toNat * 2 ^ (inode.bits - 1) < 2 ^ inode.bits := by
      have hb := Nat.mul_le_mul_right (2 ^ (inode.bits - 1)) (Bool.toNat_le b)
      have hj := List.mem_range.mp hj
      have hpow := Nat.pow_succ (n := 2) (m := inode.bits - 1)
      rw [Nat.succ_eq_add_one, Nat.sub_add_cancel (Nat.le_of_lt hbits)] at hpow
      omega
    exact mem_leaves_tnode.mpr ⟨_, hlt, hl⟩
  · intro l hl
    rw [hres.leaves] at hl
    have hprefix := hokh.agree hl
    rwa [putChildren_key, putChildren_pos, tnodeNew_key, tnodeNew_pos, hpos] at hprefix
  · have hfrom := hres.behind
    rwa [putChildren_pos, tnodeNew_pos, hpos] at hfrom

/-- A child that looks at more bits from the next one on: both halves are resized. -/
theorem cut_of_halves {inode : TnodeHead} {child : ℕ → Node α} (hold : old.Ok)
    (hi : i < 2 ^ old.bits) (hchild : old.child i = .tnode inode child)
    (hpos : inode.pos = old.pos + old.bits) (hbits : 1 < inode.bits)
    (hresize : Resizes (old.pos + 1) resize) (mem mem' : Memory) {m : TKey} {size : ℕ}
    (hm : m = (~~~(0 : TKey) <<< 31) >>> inode.pos) (hsize : size = 2 ^ (inode.bits - 1)) :
    Cut old i
      (resize ((tnodeNew (inode.key &&& ~~~m) (inode.pos + 1) (inode.bits - 1)).putChildren child
        0 size) mem)
      (resize ((tnodeNew (inode.key ||| m) (inode.pos + 1) (inode.bits - 1)).putChildren child
        size size) mem') := by
  have hok := hold.kept i hi
  rw [hchild] at hok
  have hwithin : inode.pos + inode.bits ≤ 32 := hok.1.2.1
  have hmask : ∀ p, m.getMsbD p = decide (p = inode.pos) := by
    rw [hm]
    exact getMsbD_mask (by omega)
  obtain ⟨hfitsl, hkeptl, hleavesl⟩ := half_resized (inode.key &&& ~~~m) false hold hi hchild
    hpos hbits hresize (fun p hp => by
      rw [BitVec.getMsbD_and, BitVec.getMsbD_not, hmask, decide_eq_false (Nat.ne_of_lt hp),
        decide_eq_true (show p < 32 by omega), Bool.not_false, Bool.and_true, Bool.and_true])
    (by rw [BitVec.getMsbD_and, BitVec.getMsbD_not, hmask, decide_eq_true rfl, Bool.not_true,
      Bool.and_false, Bool.and_false]) mem rfl
  obtain ⟨hfitsr, hkeptr, hleavesr⟩ := half_resized (inode.key ||| m) true hold hi hchild
    hpos hbits hresize (fun p hp => by
      rw [BitVec.getMsbD_or, hmask, decide_eq_false (Nat.ne_of_lt hp), Bool.or_false])
    (by rw [BitVec.getMsbD_or, hmask, decide_eq_true rfl, Bool.or_true]) mem' rfl
  simp only [Bool.toNat_false, Bool.toNat_true, Nat.zero_mul, Nat.one_mul, ← hsize, Nat.add_zero]
    at hfitsl hkeptl hleavesl hfitsr hkeptr hleavesr
  refine ⟨hfitsl, hfitsr, hkeptl, hkeptr, ?_⟩
  have hdouble : 2 ^ inode.bits = size + size := by
    rw [hsize, ← Nat.two_mul, Nat.mul_comm, ← Nat.pow_succ, Nat.succ_eq_add_one,
      Nat.sub_add_cancel (Nat.le_of_lt hbits)]
  rw [hleavesl, hleavesr, hchild, Node.leaves, hdouble, flatMap_range_add]

/-- **Step lemma** of the second loop. -/
theorem Inflating.step (hold : old.Ok) (hwithin : old.pos + old.bits < 32)
    (hresize : Resizes (old.pos + 1) resize) (hi : i < 2 ^ old.bits) (hs : Inflating old i tn) :
    Inflating old (i + 1) (inflateChild resize old mem i tn) := by
  have heven : 2 * i / 2 = i := by omega
  have hodd : (2 * i + 1) / 2 = i := by omega
  have hl := hs.rest (2 * i) le_rfl (by omega)
  have hr := hs.rest (2 * i + 1) (by omega) (by omega)
  have hfits := hold.fits i hi
  rw [inflateSlot, heven] at hl
  rw [inflateSlot, hodd] at hr
  cases hchild : old.child i with
  | null =>
      rw [hchild] at hl hr
      rw [inflateChild, hchild]
      apply hs.succ rfl rfl rfl hs.counted fun _ _ _ => rfl
      rw [hl, hr]
      exact ⟨fitsIn_null, fitsIn_null, trivial, trivial, by rw [hchild]; rfl⟩
  | leaf key list =>
      have hwhole := hs.whole hold hi hwithin (by rw [hchild]; rfl) (by rw [hchild]; trivial)
        (by rw [inflateSlot, heven, hchild]) (by rw [inflateSlot, hodd, hchild])
      rw [inflateChild, hchild]
      rwa [hchild] at hwhole
  | tnode inode child =>
      rw [hchild] at hl hr hfits
      have hbehind : old.pos + old.bits ≤ inode.pos := hfits.behind
      have hok := hold.kept i hi
      rw [hchild] at hok
      have hbits : 0 < inode.bits := hok.1.1
      rw [inflateChild, hchild]
      dsimp only
      rw [hs.pos, hs.bits]
      split
      next hskip =>
        have hne : ¬(inode.pos = old.pos + old.bits ∧ 1 < inode.bits) := by omega
        have hwhole := hs.whole hold hi hwithin (by rw [hchild]; rfl)
          (by rw [hchild]; change old.pos + (old.bits + 1) ≤ inode.pos; omega)
          (by rw [inflateSlot, heven, hchild]; exact if_neg hne)
          (by rw [inflateSlot, hodd, hchild]; exact if_neg hne)
        rwa [hchild] at hwhole
      next hskip =>
        have hpos : inode.pos = old.pos + old.bits := by omega
        split
        next hone =>
          exact hs.both hi ⟨rfl, rfl, rfl⟩ hs.counted (fun _ _ _ => rfl)
            (cut_of_one_bit hold hi hchild hpos hone)
        next hone =>
          have hmany : 1 < inode.bits := by omega
          obtain ⟨hltl, hltr⟩ := two_mul_slot hi hs.bits
          dsimp only at hl hr
          rw [if_pos ⟨hpos, hmany⟩, if_pos (by omega)] at hl
          rw [if_pos ⟨hpos, hmany⟩, if_neg (by omega)] at hr
          rw [hl, hr]
          dsimp only [Tnode.node]
          apply hs.both hi
          · exact ⟨rfl, rfl, rfl⟩
          · exact (hs.counted.putChild hltl _).putChild hltr _
          · intro j hjl hjr
            rw [putChild_child_of_ne _ _ hjr, putChild_child_of_ne _ _ hjl]
          · exact cut_of_halves hold hi hchild hpos hmany hresize _ _ rfl rfl

/-- A node with a full child can be doubled. -/
theorem Tnode.Ok.lt_of_full (hok : tn.Ok) (hfull : 0 < tn.fullChildren) :
    tn.pos + tn.bits < 32 := by
  rw [hok.counted.full] at hfull
  obtain ⟨i, hi, hmark⟩ := exists_marked hfull
  have hkept := hok.kept i hi
  cases hchild : tn.child i with
  | null | leaf =>
      rw [hchild] at hmark
      cases hmark
  | tnode head child =>
      rw [hchild] at hmark hkept
      have hpos : head.pos = tn.pos + tn.bits := eq_of_beq hmark
      have hbits := hkept.1.1
      have hwithin := hkept.1.2.1
      omega

/-- A child that is there has left something in its two slots. -/
theorem Cut.there (hcut : Cut old i x y) (hold : (old.child i).Kept)
    (hthere : (old.child i).isNull = false) : x.isNull = false ∨ y.isNull = false := by
  rw [← Bool.and_eq_false_iff, ← Bool.not_eq_true, Bool.and_eq_true]
  rintro ⟨hx, hy⟩
  have hleaves := hcut.leaves
  rw [hcut.keptLeft.leaves_eq_nil_iff.mpr hx, hcut.keptRight.leaves_eq_nil_iff.mpr hy] at hleaves
  rw [hold.leaves_eq_nil_iff.mp hleaves.symm] at hthere
  cases hthere

/-- All children have been gone through. -/
theorem Inflating.finish (hold : old.Ok) (hdense : old.emptyChildren + 2 ≤ 2 ^ old.bits)
    (hwithin : old.pos + old.bits < 32) (hs : Inflating old (2 ^ old.bits) tn) :
    tn.Ok ∧ tn.node.leaves = old.node.leaves ∧ tn.emptyChildren + 2 ≤ 2 ^ tn.bits := by
  have hpow : 2 ^ tn.bits = 2 * 2 ^ old.bits := by
    rw [hs.bits, Nat.pow_succ, Nat.mul_comm]
  have hslot : ∀ j < 2 ^ tn.bits,
      FitsIn old.key old.pos (old.bits + 1) j (tn.child j) ∧ (tn.child j).Kept := by
    intro j hj
    have hcut := hs.cut (j / 2) (by omega)
    rcases Nat.mod_two_eq_zero_or_one j with hmod | hmod
    · rw [show j = 2 * (j / 2) by omega]
      exact ⟨hcut.fitsLeft, hcut.keptLeft⟩
    · rw [show j = 2 * (j / 2) + 1 by omega]
      have hhalf : (2 * (j / 2) + 1) / 2 = j / 2 := by omega
      exact ⟨hcut.fitsRight, hcut.keptRight⟩
  refine ⟨⟨?_, ?_, hs.counted, ?_, fun j hj => (hslot j hj).2⟩, ?_, ?_⟩
  · rw [hs.bits]
    exact Nat.succ_pos _
  · rw [hs.pos, hs.bits]
    exact hwithin
  · intro j hj
    rw [hs.key, hs.pos, hs.bits]
    exact (hslot j hj).1
  · rw [leaves_node, hpow, flatMap_range_two_mul, leaves_node]
    exact flatMap_range_congr fun i hi => (hs.cut i hi).leaves
  · rw [hold.counted.empty] at hdense
    rw [hs.counted.empty, hpow]
    obtain ⟨i, j, hij, hj, hi, hj'⟩ := marked_add_two_le.mp hdense
    have hleft := (hs.cut i (hij.trans hj)).there (hold.kept i (hij.trans hj)) hi
    have hright := (hs.cut j hj).there (hold.kept j hj) hj'
    rw [marked_add_two_le]
    rcases hleft with hleft | hleft <;> rcases hright with hright | hright
    · exact ⟨2 * i, 2 * j, by omega, by omega, hleft, hright⟩
    · exact ⟨2 * i, 2 * j + 1, by omega, by omega, hleft, hright⟩
    · exact ⟨2 * i + 1, 2 * j, by omega, by omega, hleft, hright⟩
    · exact ⟨2 * i + 1, 2 * j + 1, by omega, by omega, hleft, hright⟩

/-- `inflate` doubles a node; its leaves stay the same. -/
theorem inflate_spec (hold : old.Ok) (hdense : old.emptyChildren + 2 ≤ 2 ^ old.bits)
    (hwithin : old.pos + old.bits < 32) (hresize : Resizes (old.pos + 1) resize)
    (hrun : inflate resize old mem = some tn) :
    tn.Ok ∧ tn.node.leaves = old.node.leaves ∧ tn.emptyChildren + 2 ≤ 2 ^ tn.bits ∧
      tn.pos = old.pos := by
  rw [inflate] at hrun
  split at hrun
  next =>
    obtain ⟨fresh, hfresh, rfl⟩ := Option.map_eq_some_iff.mp hrun
    obtain ⟨hkey, hpos, hbits, hcounted, hchild⟩ := inflatePrealloc_spec le_rfl hfresh
    have hloop : ∀ k ≤ 2 ^ old.bits,
        Inflating old k (inflateChildren resize old (mem.within 2) fresh k) := by
      intro k hk
      induction k with
      | zero =>
          refine ⟨hkey, hpos, hbits, hcounted, nofun, fun j _ hj => ?_⟩
          rw [inflateChildren, hchild]
          exact if_pos hj
      | succ k ih =>
          exact (ih (Nat.le_of_succ_le hk)).step hold hwithin hresize (Nat.lt_of_succ_le hk)
    have hdone := hloop _ le_rfl
    obtain ⟨hok, hleaves, hdense'⟩ := hdone.finish hold hdense hwithin
    exact ⟨hok, hleaves, hdense', hdone.pos⟩
  next => cases hrun

/-- What `halve` makes of two children. -/
structure Joined (old : Tnode α) (b k : ℕ) (n : Node α) : Prop where
  fits : FitsIn old.key old.pos b k n
  kept : n.Kept
  leaves : n.leaves = (old.child (2 * k)).leaves ++ (old.child (2 * k + 1)).leaves

/-- What `halve` has allocated for a slot. -/
def halveSlot (old : Tnode α) (b k : ℕ) : Node α :=
  if !(old.child (2 * k)).isNull && !(old.child (2 * k + 1)).isNull then
    (tnodeNew (old.child (2 * k)).key (old.pos + b) 1).node
  else .null

/-- `halve` has come to pair `k`. -/
structure Halving (old : Tnode α) (b k : ℕ) (tn : Tnode α) : Prop where
  key : tn.key = old.key
  pos : tn.pos = old.pos
  bits : tn.bits = b
  counted : tn.Counted
  joined : ∀ i < k, Joined old b i (tn.child i)
  rest : ∀ j, k ≤ j → j < 2 ^ b → tn.child j = halveSlot old b j

/-- The allocations have been made. -/
theorem halvePrealloc_spec {b : ℕ} (hk : k ≤ 2 ^ b)
    (hrun : halvePrealloc old mem (tnodeNew old.key old.pos b) k = some tn) :
    tn.key = old.key ∧ tn.pos = old.pos ∧ tn.bits = b ∧ tn.Counted ∧
      ∀ j, tn.child j = if j < k then halveSlot old b j else .null := by
  induction k generalizing tn with
  | zero =>
      cases hrun
      exact ⟨rfl, rfl, rfl, tnodeNew_counted _ _ _, fun j => rfl⟩
  | succ k ih =>
      obtain ⟨before, hbefore, hrun⟩ := Option.bind_eq_some_iff.mp hrun
      obtain ⟨hkey, hpos, hbits, hcounted, hchild⟩ := ih (Nat.le_of_succ_le hk) hbefore
      split at hrun
      next hboth =>
        split at hrun
        next =>
          cases hrun
          refine ⟨hkey, hpos, hbits, hcounted.putChild (by rw [hbits]; exact hk) _, fun j => ?_⟩
          by_cases hj : j = k
          · rw [hj, putChild_child_self, if_pos (Nat.lt_succ_self k), halveSlot, if_pos hboth, hpos,
              hbits]
          · rw [putChild_child_of_ne _ _ hj, hchild]
            by_cases hlt : j < k
            · rw [if_pos hlt, if_pos (by omega)]
            · rw [if_neg hlt, if_neg (by omega)]
        next => cases hrun
      next hboth =>
        cases hrun
        refine ⟨hkey, hpos, hbits, hcounted, fun j => ?_⟩
        rw [hchild]
        by_cases hlt : j < k
        · rw [if_pos hlt, if_pos (by omega)]
        · rw [if_neg hlt]
          by_cases hj : j = k
          · rw [hj, if_pos (Nat.lt_succ_self k), halveSlot, if_neg hboth]
          · rw [if_neg (by omega)]

/-- The slot of one pair has been written. -/
theorem Halving.succ {b : ℕ} {next : Tnode α} (hs : Halving old b k tn)
    (hkey : next.key = tn.key) (hpos : next.pos = tn.pos) (hbits : next.bits = tn.bits)
    (hcounted : next.Counted) (hchild : ∀ j, j ≠ k → next.child j = tn.child j)
    (hjoined : Joined old b k (next.child k)) : Halving old b (k + 1) next where
  key := hkey.trans hs.key
  pos := hpos.trans hs.pos
  bits := hbits.trans hs.bits
  counted := hcounted
  joined i hi := by
    rcases Nat.lt_succ_iff_lt_or_eq.mp hi with hlt | rfl
    · rw [hchild _ (Nat.ne_of_lt hlt)]
      exact hs.joined i hlt
    · exact hjoined
  rest j hle hlt := by
    rw [hchild _ (by omega)]
    exact hs.rest j (by omega) hlt

/-- One bit less: the number of the pair. -/
theorem FitsIn.coarse {key : TKey} {pos b c : ℕ} (hfits : FitsIn key pos (b + 1) (2 * k + c) n)
    (hc : c ≤ 1) : FitsIn key pos b k n ∧ ∀ l ∈ n.leaves, (l.1.getMsbD (pos + b)).toNat = c := by
  have hkeys : ∀ l ∈ n.leaves, field l.1 pos b = k ∧ (l.1.getMsbD (pos + b)).toNat = c := by
    intro l hl
    have hfield := (hfits.keys l hl).2
    rw [field_succ] at hfield
    have hbit := Bool.toNat_le (l.1.getMsbD (pos + b))
    omega
  refine ⟨⟨fun l hl => ⟨(hfits.keys l hl).1, (hkeys l hl).1⟩, ?_⟩, fun l hl => (hkeys l hl).2⟩
  exact hfits.behind.mono (Nat.add_le_add_left (Nat.le_succ b) pos)

theorem tnodeNew_ok {key : TKey} {pos bits : ℕ} (hbits : 0 < bits) (hwithin : pos + bits ≤ 32) :
    (tnodeNew key pos bits : Tnode α).Ok where
  bits_pos := hbits
  within := hwithin
  counted := tnodeNew_counted key pos bits
  fits _ _ := fitsIn_null
  kept _ _ := trivial

/-- A node that looks at one bit, which tells its children apart. -/
theorem binNode_ok {key okey : TKey} {pos i : ℕ} (c : Bool) (hwithin : pos < 32)
    (hkey : Agree key okey pos) (hx : x.Kept) (hy : y.Kept) (hxfrom : x.From (pos + 1))
    (hyfrom : y.From (pos + 1))
    (hxkeys : ∀ l ∈ x.leaves, Agree l.1 okey pos ∧ l.1.getMsbD pos = c)
    (hykeys : ∀ l ∈ y.leaves, Agree l.1 okey pos ∧ l.1.getMsbD pos = !c) (hi : i = c.toNat) :
    (((tnodeNew key pos 1).putChild i x).putChild (1 - i) y).Ok := by
  have hslot : ∀ {d : Bool} {n : Node α}, n.From (pos + 1) →
      (∀ l ∈ n.leaves, Agree l.1 okey pos ∧ l.1.getMsbD pos = d) →
      FitsIn key pos 1 d.toNat n := by
    intro d n hfrom hkeys
    refine ⟨fun l hl => ⟨(hkeys l hl).1.trans hkey.symm, ?_⟩, hfrom⟩
    rw [field_succ, field_zero, Nat.mul_zero, Nat.zero_add, Nat.add_zero, (hkeys l hl).2]
  have hother : 1 - i = (!c).toNat := by
    rw [hi]
    cases c <;> rfl
  rw [hother, hi]
  apply ((tnodeNew_ok Nat.one_pos hwithin).putChild (Bool.toNat_lt c) (hslot hxfrom hxkeys)
    hx).putChild (Bool.toNat_lt _) (hslot hyfrom hykeys) hy

theorem leaves_binNode (key : TKey) (pos : ℕ) (c : Bool) (x y : Node α) :
    (((tnodeNew key pos 1).putChild c.toNat x).putChild (1 - c.toNat) y).node.leaves =
      bif c then y.leaves ++ x.leaves else x.leaves ++ y.leaves := by
  rw [leaves_node]
  cases c <;> simp [List.range_succ, putChild_child, Function.update]

/-- Two children under a new node. -/
theorem joined_of_both {b : ℕ} (hold : old.Ok) (hbits : old.bits = b + 1) (hb : 0 < b)
    (hk : k < 2 ^ b) (hresize : Resizes (old.pos + 1) resize)
    (hl : (old.child (2 * k)).isNull = false) (mem : Memory) :
    Joined old b k (resize (((tnodeNew (old.child (2 * k)).key (old.pos + b) 1).putChild 0
      (old.child (2 * k))).putChild 1 (old.child (2 * k + 1))) mem) := by
  have hwithin := hold.within
  have hpow : 2 ^ old.bits = 2 * 2 ^ b := by rw [hbits, Nat.pow_succ, Nat.mul_comm]
  have hkl := hold.kept (2 * k) (by omega)
  have hkr := hold.kept (2 * k + 1) (by omega)
  have hfl := hold.fits (2 * k) (by omega)
  have hfr := hold.fits (2 * k + 1) (by omega)
  rw [hbits] at hfl hfr
  obtain ⟨hcl, hbl⟩ := hfl.coarse (c := 0) (Nat.zero_le 1)
  obtain ⟨hcr, hbr⟩ := hfr.coarse (c := 1) le_rfl
  have hown := hcl.own_key hkl hl
  have hsame : ∀ {n : Node α}, FitsIn old.key old.pos b k n → ∀ l ∈ n.leaves,
      Agree l.1 (old.child (2 * k)).key (old.pos + b) := by
    intro n hn l hl
    obtain ⟨hagree, hfield⟩ := hn.keys l hl
    exact agree_add.mpr ⟨hagree.trans hown.1.symm, hfield.trans hown.2.symm⟩
  have hokn := binNode_ok false (show old.pos + b < 32 by omega)
    (Agree.refl (old.child (2 * k)).key _) hkl hkr hfl.behind hfr.behind
    (fun l hl => ⟨hsame hcl l hl, Bool.toNat_eq_zero.mp (hbl l hl)⟩)
    (fun l hl => ⟨hsame hcr l hl, Bool.toNat_eq_one.mp (hbr l hl)⟩) rfl
  have hres := hresize _ mem hokn (by change old.pos + 1 ≤ old.pos + b; omega)
  have hleaves := hres.leaves.trans (leaves_binNode _ _ false _ _)
  refine ⟨⟨?_, hres.behind⟩, hres.kept, hleaves⟩
  intro l hl
  rcases List.mem_append.mp ((congrArg (l ∈ ·) hleaves).mp hl) with hl | hl
  · exact hcl.keys l hl
  · exact hcr.keys l hl

/-- **Step lemma** of the second loop. -/
theorem Halving.step {b : ℕ} (hold : old.Ok) (hbits : old.bits = b + 1) (hb : 0 < b)
    (hresize : Resizes (old.pos + 1) resize) (hk : k < 2 ^ b) (hs : Halving old b k tn) :
    Halving old b (k + 1) (halvePair resize old mem k tn) := by
  have hpow : 2 ^ old.bits = 2 * 2 ^ b := by rw [hbits, Nat.pow_succ, Nat.mul_comm]
  have hkl := hold.kept (2 * k) (by omega)
  have hkr := hold.kept (2 * k + 1) (by omega)
  have hfl := hold.fits (2 * k) (by omega)
  have hfr := hold.fits (2 * k + 1) (by omega)
  rw [hbits] at hfl hfr
  have hslot := hs.rest k le_rfl hk
  have hlt : k < 2 ^ tn.bits := by rw [hs.bits]; exact hk
  have hwrite : ∀ {n : Node α}, Joined old b k n → Halving old b (k + 1) (tn.putChild k n) := by
    intro n hn
    apply hs.succ
    · rfl
    · rfl
    · rfl
    · exact hs.counted.putChild hlt n
    · exact fun j hj => putChild_child_of_ne _ _ hj
    · rwa [putChild_child_self]
  rw [halvePair]
  dsimp only
  split
  next hl =>
    have hnil := hkl.leaves_eq_nil_iff.mpr hl
    split
    next hr =>
      have hnone : halveSlot old b k = .null := by
        rw [halveSlot, hl]
        rfl
      rw [hnone] at hslot
      apply hs.succ rfl rfl rfl hs.counted fun _ _ => rfl
      rw [hslot]
      refine ⟨fitsIn_null, trivial, ?_⟩
      rw [hnil, hkr.leaves_eq_nil_iff.mpr hr]
      rfl
    next hr =>
      exact hwrite ⟨(hfr.coarse (c := 1) le_rfl).1, hkr, by rw [hnil, List.nil_append]⟩
  next hl =>
    rw [Bool.not_eq_true] at hl
    split
    next hr =>
      have hnil := hkr.leaves_eq_nil_iff.mpr hr
      exact hwrite ⟨(hfl.coarse (c := 0) (Nat.zero_le 1)).1, hkl, by rw [hnil, List.append_nil]⟩
    next hr =>
      rw [Bool.not_eq_true] at hr
      rw [halveSlot, hl, hr] at hslot
      have hsome : tn.child k = (tnodeNew (old.child (2 * k)).key (old.pos + b) 1).node := hslot
      rw [hsome]
      dsimp only [Tnode.node]
      have hjoined := joined_of_both hold hbits hb hk hresize hl (mem.within k)
      apply hs.succ
      · rfl
      · rfl
      · rfl
      · exact (hs.counted.putChild hlt _).putChild hlt _
      · intro j hj
        rw [putChild_child_of_ne _ _ hj, putChild_child_of_ne _ _ hj]
      · rw [putChild_child_self]
        exact hjoined

/-- `halve` joins the children in pairs; the leaves stay the same. -/
theorem halve_spec (hold : old.Ok) (hbits : 1 < old.bits) (hresize : Resizes (old.pos + 1) resize)
    (hrun : halve resize old mem = some tn) :
    tn.Ok ∧ tn.node.leaves = old.node.leaves ∧ tn.pos = old.pos := by
  obtain ⟨b, hb, hold'⟩ : ∃ b, 0 < b ∧ old.bits = b + 1 :=
    ⟨old.bits - 1, Nat.sub_pos_of_lt hbits, (Nat.sub_add_cancel (Nat.le_of_lt hbits)).symm⟩
  have hlen : old.childLength / 2 = 2 ^ b := by
    rw [TnodeHead.childLength, hold', Nat.pow_succ, Nat.mul_div_cancel _ Nat.two_pos]
  have hwithin := hold.within
  rw [halve, hlen, hold', Nat.add_sub_cancel] at hrun
  split at hrun
  next =>
    obtain ⟨fresh, hfresh, rfl⟩ := Option.map_eq_some_iff.mp hrun
    obtain ⟨hkey, hpos, hfbits, hcounted, hchild⟩ := halvePrealloc_spec le_rfl hfresh
    have hloop : ∀ k ≤ 2 ^ b, Halving old b k (halvePairs resize old (mem.within 2) fresh k) := by
      intro k hk
      induction k with
      | zero =>
          refine ⟨hkey, hpos, hfbits, hcounted, nofun, fun j _ hj => ?_⟩
          rw [halvePairs, hchild]
          exact if_pos hj
      | succ k ih =>
          exact (ih (Nat.le_of_succ_le hk)).step hold hold' hb hresize (Nat.lt_of_succ_le hk)
    have hdone := hloop _ le_rfl
    refine ⟨⟨?_, ?_, hdone.counted, ?_, ?_⟩, ?_, hdone.pos⟩
    · rw [hdone.bits]
      exact hb
    · rw [hdone.pos, hdone.bits]
      omega
    · intro j hj
      rw [hdone.bits] at hj
      rw [hdone.key, hdone.pos, hdone.bits]
      exact (hdone.joined j hj).fits
    · intro j hj
      rw [hdone.bits] at hj
      exact (hdone.joined j hj).kept
    · have hpow : 2 ^ old.bits = 2 * 2 ^ b := by rw [hold', Nat.pow_succ, Nat.mul_comm]
      rw [leaves_node, leaves_node, hdone.bits, hpow, flatMap_range_two_mul]
      exact flatMap_range_congr fun i hi => (hdone.joined i hi).leaves
  next => cases hrun

/-- Without children there are no leaves. -/
theorem Tnode.Ok.leaves_eq_nil_iff (hok : tn.Ok) :
    tn.node.leaves = [] ↔ tn.emptyChildren = 2 ^ tn.bits := by
  rw [hok.counted.empty, marked_eq_iff, leaves_node, List.flatMap_eq_nil_iff]
  constructor
  · exact fun h i hi => (hok.kept i hi).leaves_eq_nil_iff.mp (h i (List.mem_range.mpr hi))
  · intro h i hi
    have hi := List.mem_range.mp hi
    exact (hok.kept i hi).leaves_eq_nil_iff.mpr (h i hi)

/-- Where there are leaves and not just one child, there are two. -/
theorem Tnode.Ok.dense (hok : tn.Ok) (hne : tn.node.leaves ≠ [])
    (hone : tn.emptyChildren ≠ tn.childLength - 1) : tn.emptyChildren + 2 ≤ 2 ^ tn.bits := by
  have hlen : tn.childLength = 2 ^ tn.bits := rfl
  have hle : tn.emptyChildren ≤ 2 ^ tn.bits := hok.counted.empty ▸ marked_le
  have hsome : tn.emptyChildren ≠ 2 ^ tn.bits := fun h => hne (hok.leaves_eq_nil_iff.mpr h)
  omega

/-- The node gives way to its only child. -/
theorem Tnode.Ok.oneChild (hok : tn.Ok) (hone : tn.emptyChildren = tn.childLength - 1) :
    ResizedTo tn tn.oneChild := by
  have hpos : 0 < 2 ^ tn.bits := Nat.two_pow_pos _
  have hlen : tn.childLength = 2 ^ tn.bits := rfl
  have hnotall : ¬ ∀ i < 2 ^ tn.bits, (tn.child i).isNull = true := by
    rw [← marked_eq_iff (p := Node.isNull) (c := tn.child), ← hok.counted.empty]
    omega
  have hsome : ((List.range tn.childLength).map tn.child).find? (fun n => !n.isNull) ≠ none := by
    intro hnone
    apply hnotall
    intro i hi
    have hnull := List.find?_eq_none.mp hnone (tn.child i)
      (List.mem_map_of_mem (List.mem_range.mpr hi))
    rwa [Bool.not_eq_true', Bool.not_eq_false] at hnull
  obtain ⟨n, hfind⟩ := Option.ne_none_iff_exists'.mp hsome
  have hthere := List.find?_some hfind
  obtain ⟨i, hi, rfl⟩ := List.mem_map.mp (List.mem_of_find?_eq_some hfind)
  have hi := List.mem_range.mp hi
  have hothers : ∀ j < 2 ^ tn.bits, j ≠ i → (tn.child j).leaves = [] := by
    intro j hj hne
    apply (hok.kept j hj).leaves_eq_nil_iff.mpr
    by_contra hnull
    rw [Bool.not_eq_true] at hnull
    have hthere' : (tn.child i).isNull = false := by rwa [Bool.not_eq_true'] at hthere
    have htwo : marked Node.isNull tn.child (2 ^ tn.bits) + 2 ≤ 2 ^ tn.bits := by
      apply marked_add_two_le.mpr
      rcases Nat.lt_or_gt_of_ne hne with hlt | hlt
      · exact ⟨j, i, hlt, hi, hnull, hthere'⟩
      · exact ⟨i, j, hlt, hj, hthere', hnull⟩
    rw [← hok.counted.empty] at htwo
    omega
  have hchild : tn.oneChild = tn.child i := by rw [Tnode.oneChild, hfind, Option.getD_some]
  rw [hchild]
  refine ⟨hok.kept i hi, ?_, (hok.fits i hi).behind.mono (Nat.le_add_right _ _)⟩
  exact (flatMap_range_single hi hothers).symm

/-- The first loop of `resize`. -/
theorem inflateWhile_spec (isRoot : Bool) (mem : Memory) (work : ℕ) (hok : tn.Ok)
    (hdense : tn.emptyChildren + 2 ≤ 2 ^ tn.bits) (hresize : Resizes (tn.pos + 1) resize) :
    (inflateWhile resize isRoot mem work tn).1.Ok ∧
      (inflateWhile resize isRoot mem work tn).1.node.leaves = tn.node.leaves ∧
      (inflateWhile resize isRoot mem work tn).1.emptyChildren + 2 ≤
        2 ^ (inflateWhile resize isRoot mem work tn).1.bits ∧
      (inflateWhile resize isRoot mem work tn).1.pos = tn.pos := by
  induction work generalizing tn with
  | zero =>
      rw [inflateWhile]
      split <;> exact ⟨hok, rfl, hdense, rfl⟩
  | succ work ih =>
      rw [inflateWhile]
      split
      next hfull =>
        split
        next =>
          split
          next doubled hrun =>
            obtain ⟨hok', hleaves, hdense', hpos⟩ :=
              inflate_spec hok hdense (hok.lt_of_full hfull) hresize hrun
            obtain ⟨hok'', hleaves', hdense'', hpos'⟩ := ih hok' hdense' (hpos ▸ hresize)
            exact ⟨hok'', hleaves'.trans hleaves, hdense'', hpos'.trans hpos⟩
          next => exact ⟨hok, rfl, hdense, rfl⟩
        next => exact ⟨hok, rfl, hdense, rfl⟩
      next => exact ⟨hok, rfl, hdense, rfl⟩

/-- The second loop of `resize`. -/
theorem halveWhile_spec (isRoot : Bool) (mem : Memory) (work : ℕ) (hok : tn.Ok)
    (hresize : Resizes (tn.pos + 1) resize) :
    (halveWhile resize isRoot mem work tn).Ok ∧
      (halveWhile resize isRoot mem work tn).node.leaves = tn.node.leaves ∧
      (halveWhile resize isRoot mem work tn).pos = tn.pos := by
  induction work generalizing tn with
  | zero => exact ⟨hok, rfl, rfl⟩
  | succ work ih =>
      rw [halveWhile]
      split
      next hsparse =>
        split
        next halved hrun =>
          obtain ⟨hok', hleaves, hpos⟩ := halve_spec hok hsparse.1 hresize hrun
          obtain ⟨hok'', hleaves', hpos'⟩ := ih hok' (hpos ▸ hresize)
          exact ⟨hok'', hleaves'.trans hleaves, hpos'.trans hpos⟩
        next => exact ⟨hok, rfl, rfl⟩
      next => exact ⟨hok, rfl, rfl⟩

/-- **What `resize` keeps.**  By induction on the fuel, which is enough for the bits that are left
of a key. -/
theorem resize_spec (fuel : ℕ) (isRoot : Bool) (mem : Memory) (hok : tn.Ok)
    (hfuel : 32 ≤ tn.pos + fuel) : ResizedTo tn (FibTrie.resize fuel isRoot tn mem) := by
  induction fuel generalizing tn isRoot mem with
  | zero =>
      have hbits := hok.bits_pos
      have hwithin := hok.within
      omega
  | succ fuel ih =>
      have hresize : Resizes (tn.pos + 1) (FibTrie.resize fuel false : Tnode α → _) := by
        intro t m ht hle
        exact ih false m ht (by omega)
      rw [FibTrie.resize]
      split
      next hempty => exact ⟨trivial, (hok.leaves_eq_nil_iff.mpr hempty).symm, trivial⟩
      next hempty =>
        split
        next hone => exact hok.oneChild hone
        next hone =>
          have hdense := hok.dense (fun hnil => hempty (hok.leaves_eq_nil_iff.mp hnil)) hone
          obtain ⟨hok', hleaves, hdense', hpos⟩ :=
            inflateWhile_spec isRoot (mem.within 0) maxWork hok hdense hresize
          dsimp only
          split
          next =>
            exact ⟨kept_node.mpr ⟨hok', hdense'⟩, hleaves, hpos.ge⟩
          next =>
            obtain ⟨hok'', hleaves', hpos'⟩ := halveWhile_spec isRoot (mem.within 1) maxWork
              hok' (hpos ▸ hresize)
            have hsame := hleaves'.trans hleaves
            have hback := hpos'.trans hpos
            split
            next hone' =>
              have hres := hok''.oneChild hone'
              exact ⟨hres.kept, hres.leaves.trans hsame, hback ▸ hres.behind⟩
            next hone' =>
              refine ⟨kept_node.mpr ⟨hok'', ?_⟩, hsame, hback.ge⟩
              have hne : tn.node.leaves ≠ [] := fun hnil =>
                hempty (hok.leaves_eq_nil_iff.mp hnil)
              rw [← hsame] at hne
              exact hok''.dense hne hone'

end IpAugenblick.FibTrie
