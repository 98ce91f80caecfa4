/-
# Looking up an address

`fib_table_lookup` goes down the trie along the address.  Where it finds nothing it goes back:
it clears the lowest bit that is set in the number of the slot it is in, for a shorter prefix, and
when none is set it goes up.  A node whose skipped bits rule out all prefixes of the address is
not entered.  What it finds first is in the leaf with the longest matching prefix.
-/

import IpAugenblick.Route.Update

namespace IpAugenblick.FibTrie

open Lib Lib.BitKey Lib.Slots

universe u v

variable {α : Type u} {β : Type v}

def fls (x : TKey) : ℕ := Nat.log2 x.toNat

/-- What `fib_table_lookup` has in its variables. -/
structure Search (α : Type u) where
  pn : Tnode α
  /-- The nodes above, the parent first. -/
  up : List (Tnode α)
  choppedOff : ℕ
  cindex : TKey
  currentPrefixLength : ℕ

/-- Where `fib_table_lookup` is: at the top of its loop, at `backtrace`, or at its end. -/
inductive SearchAt (α : Type u) (β : Type v) where
  | top (s : Search α)
  | backtrace (s : Search α)
  | done (result : Option β)

/-- The loop's body, up to where it descends, goes back or ends. -/
def Search.descend (check : TKey → α → Option β) (key : TKey) (s : Search α) : SearchAt α β :=
  let pos := s.pn.pos
  let bits := s.pn.bits
  let cindex := if s.choppedOff = 0 then
      tkeyExtractBits (maskPfx key s.currentPrefixLength) pos bits
    else s.cindex
  let s := { s with cindex := cindex }
  match s.pn.child cindex.toNat with
  | .null => .backtrace s
  | .leaf k list =>
      match check k list with
      | none => .backtrace s
      | some b => .done (some b)
  | .tnode cn child =>
      if s.currentPrefixLength < pos + bits ∧
          (tkeyExtractBits cn.key s.currentPrefixLength (cn.pos - s.currentPrefixLength) ≠ 0 ∨
            (child 0).isNull) then
        .backtrace s
      else
        let prefMismatch := maskPfx (cn.key ^^^ key) cn.pos
        let down (length : ℕ) : SearchAt α β := .top
          { pn := ⟨cn, child⟩
            up := s.pn :: s.up
            choppedOff := 0
            cindex := cindex
            currentPrefixLength := length }
        if prefMismatch ≠ 0 then
          let mp := 32 - fls prefMismatch - 1
          if tkeyExtractBits cn.key mp (cn.pos - mp) ≠ 0 then .backtrace s
          else down (if s.currentPrefixLength ≥ cn.pos then mp else s.currentPrefixLength)
        else down s.currentPrefixLength

/-- The loop at `backtrace`, for at most `fuel` bits. -/
def chopWhile (cindex : TKey) (bits : ℕ) : ℕ → ℕ → ℕ
  | 0, choppedOff => choppedOff
  | fuel + 1, choppedOff =>
      if choppedOff ≤ bits ∧ cindex &&& ((1 : TKey) <<< (choppedOff - 1)) = 0 then
        chopWhile cindex bits fuel (choppedOff + 1)
      else choppedOff

/-- What follows `backtrace`; the difference is unsigned. -/
def Search.back (s : Search α) : SearchAt α β :=
  let choppedOff := chopWhile s.cindex s.pn.bits s.pn.bits (s.choppedOff + 1)
  let limit := (BitVec.ofNat 32 (s.pn.pos + s.pn.bits) - BitVec.ofNat 32 choppedOff).toNat
  let length := if s.currentPrefixLength > limit then limit else s.currentPrefixLength
  if choppedOff ≤ s.pn.bits then
    .top
      { s with
        choppedOff := choppedOff
        cindex := s.cindex &&& ~~~((1 : TKey) <<< (choppedOff - 1))
        currentPrefixLength := length }
  else
    match s.up with
    | [] => .done none
    | parent :: up => .backtrace
        { pn := parent
          up := up
          choppedOff := 0
          cindex := tkeyExtractBits s.pn.key parent.pos parent.bits
          currentPrefixLength := length }

/-- Go on for at most `fuel` rounds. -/
def searchFrom (check : TKey → α → Option β) (key : TKey) : ℕ → SearchAt α β → Option (Option β)
  | _, .done result => some result
  | 0, _ => none
  | fuel + 1, .top s => searchFrom check key fuel (s.descend check key)
  | fuel + 1, .backtrace s => searchFrom check key fuel s.back

/-- `fib_table_lookup` with `check_leaf`, which tells whether a leaf has an answer: `some` answer,
no answer, or `none` when the fuel did not do. -/
def fibTableLookup (check : TKey → α → Option β) (key : TKey) (fuel : ℕ) :
    Node α → Option (Option β)
  | .null => some none
  | .leaf k list => some (check k list)
  | .tnode head child => searchFrom check key fuel (.top
      { pn := ⟨head, child⟩
        up := []
        choppedOff := 0
        cindex := 0
        currentPrefixLength := 32 })

variable {check : TKey → α → Option β} {key : TKey} {r r' : Option β}

/-- What the leaves answer, the last one first. -/
def answer (check : TKey → α → Option β) (ls : List (TKey × α)) : Option β :=
  ls.reverse.findSome? fun l => check l.1 l.2

theorem answer_append (xs ys : List (TKey × α)) :
    answer check (xs ++ ys) = (answer check ys).or (answer check xs) := by
  rw [answer, List.reverse_append, List.findSome?_append]
  rfl

theorem answer_eq_none {ls : List (TKey × α)} (h : ∀ l ∈ ls, check l.1 l.2 = none) :
    answer check ls = none :=
  List.findSome?_eq_none_iff.mpr fun l hl => h l (List.mem_reverse.mp hl)

theorem answer_range_succ (f : ℕ → List (TKey × α)) (n : ℕ) :
    answer check ((List.range (n + 1)).flatMap f) =
      (answer check (f n)).or (answer check ((List.range n).flatMap f)) := by
  rw [List.range_succ, List.flatMap_append, answer_append, List.flatMap_singleton]

/-- Slots without an answer are left out. -/
theorem answer_range_eq {f : ℕ → List (TKey × α)} {m n : ℕ} (hle : m ≤ n)
    (h : ∀ j, m ≤ j → j < n → ∀ l ∈ f j, check l.1 l.2 = none) :
    answer check ((List.range n).flatMap f) = answer check ((List.range m).flatMap f) := by
  induction n, hle using Nat.le_induction with
  | base => rfl
  | succ n hle ih =>
      rw [answer_range_succ, answer_eq_none (h n hle (Nat.lt_succ_self n)), Option.none_or]
      exact ih fun j hj hlt => h j hj (Nat.lt_succ_of_lt hlt)

/-- The bit that `cindex & (1 << b)` looks at. -/
theorem and_shift_eq_zero_iff (c : TKey) {b : ℕ} (hb : b < 32) :
    c &&& ((1 : TKey) <<< b) = 0 ↔ c.getLsbD b = false := by
  constructor
  · intro h
    have hbit := congrArg (fun x : TKey => x.getLsbD b) h
    simpa [BitVec.getLsbD_and, hb] using hbit
  · intro h
    apply BitVec.eq_of_getLsbD_eq
    intro j hj
    by_cases hjb : j = b
    · rw [hjb, BitVec.getLsbD_and, h]
      simp
    · simp [BitVec.getLsbD_and, BitVec.getLsbD_shiftLeft]
      omega

theorem getLsbD_clear (c : TKey) {b : ℕ} (hb : b < 32) (j : ℕ) :
    (c &&& ~~~((1 : TKey) <<< b)).getLsbD j = (c.getLsbD j && !decide (j = b)) := by
  by_cases hj : j < 32
  · rw [BitVec.getLsbD_and, BitVec.getLsbD_not]
    by_cases hjb : j = b
    · simp [hjb, hb]
    · simp [hjb, hj]
      omega
  · rw [BitVec.getLsbD_of_ge _ _ (Nat.le_of_not_lt hj), BitVec.getLsbD_of_ge c _
      (Nat.le_of_not_lt hj), Bool.false_and]

/-- The loop at `backtrace` finds the lowest bit that is set, if there is one. -/
theorem chopWhile_spec (c : TKey) (fuel : ℕ) {bits k : ℕ} (hbits : bits ≤ 32) (hk : 0 < k)
    (hfuel : bits < fuel + k) (hle : k ≤ bits + 1) :
    (chopWhile c bits fuel k ≤ bits + 1 ∧ k ≤ chopWhile c bits fuel k) ∧
      (∀ b, k ≤ b + 1 → b + 1 < chopWhile c bits fuel k → c.getLsbD b = false) ∧
      (chopWhile c bits fuel k ≤ bits → c.getLsbD (chopWhile c bits fuel k - 1) = true) := by
  induction fuel generalizing k with
  | zero =>
      rw [chopWhile]
      exact ⟨⟨hle, le_rfl⟩, fun b hb hlt => by omega, fun h => by omega⟩
  | succ fuel ih =>
      rw [chopWhile]
      split
      next h =>
        obtain ⟨⟨hhi, hlo⟩, hzero, hone⟩ := ih (k := k + 1) (by omega) (by omega) (by omega)
        refine ⟨⟨hhi, by omega⟩, fun b hb hlt => ?_, hone⟩
        rcases Nat.eq_or_lt_of_le hb with heq | hgt
        · have hbit := (and_shift_eq_zero_iff c (by omega)).mp h.2
          rw [heq] at hbit
          exact hbit
        · exact hzero b hgt hlt
      next h =>
        refine ⟨⟨hle, le_rfl⟩, fun b hb hlt => by omega, fun hk' => ?_⟩
        have hbit : ¬ c.getLsbD (k - 1) = false := fun hz =>
          h ⟨hk', (and_shift_eq_zero_iff c (by omega)).mpr hz⟩
        exact Bool.eq_true_of_not_eq_false hbit

/-- The first bit of a word, as `KEYLENGTH - __fls(x) - 1` finds it. -/
theorem fls_spec {x : TKey} (hx : x ≠ 0) :
    32 - fls x - 1 < 32 ∧ x.getMsbD (32 - fls x - 1) = true ∧
      ∀ p < 32 - fls x - 1, x.getMsbD p = false := by
  have hne : x.toNat ≠ 0 := fun h => hx (BitVec.eq_of_toNat_eq h)
  have hlt : fls x < 32 := (Nat.log2_lt hne).mpr x.isLt
  refine ⟨by omega, ?_, fun p hp => ?_⟩
  · rw [BitVec.getMsbD_eq_getLsbD, decide_eq_true (show 32 - fls x - 1 < 32 by omega),
      Bool.true_and, show 32 - 1 - (32 - fls x - 1) = fls x by omega, ← BitVec.testBit_toNat]
    exact Nat.testBit_log2 hne
  · rw [BitVec.getMsbD_eq_getLsbD, ← BitVec.testBit_toNat, Bool.and_eq_false_iff]
    refine .inr (Nat.testBit_lt_two_pow (Nat.lt_of_lt_of_le Nat.lt_log2_self ?_))
    exact Nat.pow_le_pow_right Nat.two_pos (show fls x + 1 ≤ 32 - 1 - p by omega)

section Index

variable {c : TKey} {pos bits m b : ℕ}

/-- The number of a slot on the way of a prefix of the address, bit by bit. -/
theorem getLsbD_of_index (hc : c.toNat = field (keep key m) pos bits) (i : ℕ) :
    c.getLsbD i = (decide (i < bits) &&
      (decide (pos + bits - 1 - i < m) && key.getMsbD (pos + bits - 1 - i))) := by
  rw [← BitVec.testBit_toNat, hc, testBit_field, getMsbD_keep]

/-- The bit that is set last is the last one of the prefix. -/
theorem index_eq_of_lowest (hc : c.toNat = field (keep key m) pos bits) (hb : b < bits)
    (hone : c.getLsbD b = true) (hzero : ∀ j < b, c.getLsbD j = false) :
    key.getMsbD (pos + bits - 1 - b) = true ∧ pos + bits - 1 - b < m ∧
      c.toNat = field (keep key (pos + bits - 1 - b + 1)) pos bits := by
  have hset := hone
  rw [getLsbD_of_index hc, Bool.and_eq_true, Bool.and_eq_true, decide_eq_true_eq,
    decide_eq_true_eq] at hset
  obtain ⟨-, hlt, hkey⟩ := hset
  refine ⟨hkey, hlt, ?_⟩
  apply Nat.eq_of_testBit_eq
  intro i
  rw [BitVec.testBit_toNat, testBit_field, getMsbD_keep]
  by_cases hi : i < b
  · rw [hzero i hi, decide_eq_false (show ¬ pos + bits - 1 - i < pos + bits - 1 - b + 1 by omega),
      Bool.false_and, Bool.and_false]
  · rw [getLsbD_of_index hc]
    by_cases hib : i < bits
    · rw [decide_eq_true (show pos + bits - 1 - i < m by omega),
        decide_eq_true (show pos + bits - 1 - i < pos + bits - 1 - b + 1 by omega)]
    · rw [decide_eq_false hib, Bool.false_and, Bool.false_and]

/-- Clearing it leaves the number of the prefix in front of it. -/
theorem toNat_clear (hwithin : pos + bits ≤ 32) (hc : c.toNat = field (keep key m) pos bits)
    (hb : b < bits) (hone : c.getLsbD b = true) (hzero : ∀ j < b, c.getLsbD j = false) :
    (c &&& ~~~((1 : TKey) <<< b)).toNat = field (keep key (pos + bits - 1 - b)) pos bits := by
  obtain ⟨-, hlt, -⟩ := index_eq_of_lowest hc hb hone hzero
  apply Nat.eq_of_testBit_eq
  intro i
  rw [BitVec.testBit_toNat, getLsbD_clear c (by omega), testBit_field, getMsbD_keep]
  rcases Nat.lt_trichotomy i b with hi | rfl | hi
  · rw [hzero i hi, decide_eq_false (show ¬ pos + bits - 1 - i < pos + bits - 1 - b by omega),
      Bool.false_and, Bool.false_and, Bool.and_false]
  · rw [decide_eq_true rfl, decide_eq_false (Nat.lt_irrefl _), Bool.not_true, Bool.false_and,
      Bool.and_false, Bool.and_false]
  · rw [decide_eq_false (Nat.ne_of_gt hi), Bool.not_false, Bool.and_true, getLsbD_of_index hc]
    by_cases hib : i < bits
    · rw [decide_eq_true (show pos + bits - 1 - i < m by omega),
        decide_eq_true (show pos + bits - 1 - i < pos + bits - 1 - b by omega)]
    · rw [decide_eq_false hib, Bool.false_and, Bool.false_and]

theorem toNat_clear_lt (hb : b < 32) (hone : c.getLsbD b = true) :
    (c &&& ~~~((1 : TKey) <<< b)).toNat < c.toNat := by
  have hle : (c &&& ~~~((1 : TKey) <<< b)).toNat ≤ c.toNat := by
    rw [BitVec.toNat_and]
    exact Nat.and_le_left
  refine lt_of_le_of_ne hle fun heq => ?_
  have hbit := getLsbD_clear c hb b
  rw [BitVec.eq_of_toNat_eq heq, hone, decide_eq_true rfl] at hbit
  cases hbit

end Index

/-- A leaf's key stands for a prefix of the address. -/
def Covers (key k : TKey) : Prop := ∃ m, k = keep key m

/-- No prefix of the address below a node is longer than `q`. -/
def Within (key : TKey) (q : ℕ) (n : Node α) : Prop :=
  ∀ l ∈ n.leaves, Covers key l.1 → ∀ p, q ≤ p → l.1.getMsbD p = false

theorem Within.mono {n : Node α} {q q' : ℕ} (h : Within key q n) (hle : q ≤ q') :
    Within key q' n := fun l hl hk p hp => h l hl hk p (hle.trans hp)

theorem within_all (n : Node α) : Within key 32 n := fun _ _ _ p hp =>
  BitVec.getMsbD_of_ge _ p hp

theorem Within.child (tn : Tnode α) {q i : ℕ} (h : Within key q tn.node) (hi : i < 2 ^ tn.bits) :
    Within key q (tn.child i) := fun l hl => h l (mem_leaves_node.mpr ⟨i, hi, hl⟩)

/-- Where keys differ from the address, they have no bits from there on. -/
theorem within_mismatch {n : Node α} {own : TKey} {p pos : ℕ}
    (hagree : ∀ l ∈ n.leaves, Agree l.1 own pos) (hp : p < pos)
    (hmiss : own.getMsbD p ≠ key.getMsbD p) : Within key p n := by
  rintro l hl ⟨m, hm⟩ p' hp'
  have hbit := hagree l hl p hp
  have hle : m ≤ p := by
    by_contra hlt
    rw [hm, getMsbD_keep, decide_eq_true (Nat.lt_of_not_le hlt), Bool.true_and] at hbit
    exact hmiss hbit.symm
  rw [hm, getMsbD_keep, decide_eq_false (by omega), Bool.false_and]

/-- A slot whose number lacks a bit of the address has only shorter prefixes. -/
theorem Tnode.Ok.within_cleared {tn : Tnode α} (hok : tn.Ok) {p i : ℕ} (hi : i < 2 ^ tn.bits)
    (heq : i = field (keep key p) tn.pos tn.bits) (hlo : tn.pos ≤ p) (hhi : p < tn.pos + tn.bits)
    (hset : key.getMsbD p = true) : Within key p (tn.child i) := by
  rintro l hl ⟨m, hm⟩ p' hp'
  have hfield := ((hok.fits i hi).keys l hl).2
  rw [heq, field_eq_iff] at hfield
  have hbit := hfield p hlo hhi
  have hle : m ≤ p := by
    by_contra hlt
    rw [hm, getMsbD_keep, getMsbD_keep, decide_eq_true (Nat.lt_of_not_le hlt), hset,
      decide_eq_false (Nat.lt_irrefl p)] at hbit
    cases hbit
  rw [hm, getMsbD_keep, decide_eq_false (by omega), Bool.false_and]

/-- A slot has the number that the prefixes in it have. -/
theorem Tnode.Ok.slot_of_covers {tn : Tnode α} (hok : tn.Ok) {i : ℕ} (hi : i < 2 ^ tn.bits)
    {l : TKey × α} (hl : l ∈ (tn.child i).leaves) (hk : Covers key l.1) :
    ∃ m, i = field (keep key m) tn.pos tn.bits := by
  obtain ⟨m, hm⟩ := hk
  exact ⟨m, by rw [← hm]; exact ((hok.fits i hi).keys l hl).2.symm⟩

theorem field_eq_zero {a : TKey} {off n : ℕ}
    (h : ∀ p, off ≤ p → p < off + n → a.getMsbD p = false) : field a off n = 0 := by
  rw [← field_of_zero (w := 32), field_eq_iff]
  intro p hle hlt
  rw [h p hle hlt, BitVec.getMsbD_zero]

/-- The search goes on from here and ends with this result. -/
def Ends (check : TKey → α → Option β) (key : TKey) (s : SearchAt α β) (r : Option β) : Prop :=
  ∃ fuel, searchFrom check key fuel s = some r

theorem ends_done : Ends check key (.done r : SearchAt α β) r := ⟨0, rfl⟩

theorem Ends.top {s : Search α} (h : Ends check key (s.descend check key) r) :
    Ends check key (.top s) r := by
  obtain ⟨fuel, hfuel⟩ := h
  exact ⟨fuel + 1, hfuel⟩

theorem Ends.backtrace {s : Search α} (h : Ends check key (s.back : SearchAt α β) r) :
    Ends check key (.backtrace s) r := by
  obtain ⟨fuel, hfuel⟩ := h
  exact ⟨fuel + 1, hfuel⟩

/-- More fuel changes no answer. -/
theorem searchFrom_mono {fuel n : ℕ} (hle : fuel ≤ n) {s : SearchAt α β}
    (h : searchFrom check key fuel s = some r) : searchFrom check key n s = some r := by
  induction fuel generalizing n s with
  | zero =>
      cases s with
      | done result => cases n <;> exact h
      | top | backtrace => cases h
  | succ fuel ih =>
      obtain ⟨n, rfl⟩ := Nat.exists_eq_add_of_le' (Nat.le_of_add_left_le hle)
      cases s with
      | done result => exact h
      | top s => exact ih (Nat.le_of_succ_le_succ hle) h
      | backtrace s => exact ih (Nat.le_of_succ_le_succ hle) h

/-- The search goes up from a node, with this prefix length. -/
def Goes (check : TKey → α → Option β) (key : TKey) (pn : Tnode α) (r : Option β) (q : ℕ) :
    List (Tnode α) → Prop
  | [] => r = none
  | parent :: up => Ends check key (.backtrace
      ⟨parent, up, 0, tkeyExtractBits pn.key parent.pos parent.bits, q⟩) r

/-- How a node is entered: with prefix lengths from `lo` to `hi` while the search is in it. -/
structure Entered (key : TKey) (pn : Tnode α) (lo hi : ℕ) : Prop where
  ok : pn.Ok
  le_hi : lo ≤ hi
  lo_lt : lo + 1 ≤ pn.pos ∨ lo = 0
  agree : pn.pos < hi → Agree pn.key key pn.pos ∨ lo = 0

/-- What is known of the variables at a node. -/
structure Spot (key : TKey) (pn : Tnode α) (lo hi k : ℕ) (c : TKey) (q : ℕ) : Prop where
  index : ∃ m, c.toNat = field (keep key m) pn.pos pn.bits
  low : ∀ j < k, c.getLsbD j = false
  k_le : k ≤ pn.bits
  lo_le : lo ≤ q
  le_hi : q ≤ hi
  /-- The next bit to be chopped off is not behind the current prefix. -/
  room : (∀ b, c.getLsbD b = true → pn.pos + pn.bits ≤ q + b + 1) ∨ Within key q pn.node

section Back

variable {pn : Tnode α} {up : List (Tnode α)} {lo hi k q : ℕ} {c : TKey}

/-- Nothing is left to chop off: the search goes up. -/
theorem back_climb (hin : Entered key pn lo hi) (hspot : Spot key pn lo hi k c q)
    (hhi : hi ≤ 32) (hzero : ∀ b, c.getLsbD b = false)
    (hup : ∀ q', lo ≤ q' → q' ≤ hi → Goes check key pn r q' up) :
    Ends check key (.backtrace ⟨pn, up, k, c, q⟩) r := by
  have hwithin : pn.pos + pn.bits ≤ 32 := hin.ok.within
  have hk := hspot.k_le
  obtain ⟨⟨hle, -⟩, -, hone⟩ := chopWhile_spec c pn.bits (k := k + 1)
    (by omega : pn.bits ≤ 32) (by omega) (by omega) (by omega)
  have hall : chopWhile c pn.bits pn.bits (k + 1) = pn.bits + 1 := by
    by_contra hne
    have hbit := hone (by omega)
    rw [hzero] at hbit
    cases hbit
  have hlow := hspot.lo_le
  have hhigh := hspot.le_hi
  have hlimit : lo ≤ (if q > (BitVec.ofNat 32 (pn.pos + pn.bits) -
        BitVec.ofNat 32 (pn.bits + 1)).toNat then (BitVec.ofNat 32 (pn.pos + pn.bits) -
        BitVec.ofNat 32 (pn.bits + 1)).toNat else q) ∧
      (if q > (BitVec.ofNat 32 (pn.pos + pn.bits) -
        BitVec.ofNat 32 (pn.bits + 1)).toNat then (BitVec.ofNat 32 (pn.pos + pn.bits) -
        BitVec.ofNat 32 (pn.bits + 1)).toNat else q) ≤ hi := by
    have hlo := hin.lo_lt
    simp only [BitVec.toNat_sub, BitVec.toNat_ofNat]
    split <;> omega
  apply Ends.backtrace
  simp only [Search.back, hall]
  rw [if_neg (by omega)]
  have hgo := hup _ hlimit.1 hlimit.2
  cases up with
  | nil => exact hgo ▸ ends_done
  | cons parent up => exact hgo

/-- The lowest bit that is set is chopped off. -/
theorem back_chop (hin : Entered key pn lo hi) (hspot : Spot key pn lo hi k c q) {b : ℕ}
    (hb : b < pn.bits) (hone : c.getLsbD b = true) (hzero : ∀ j < b, c.getLsbD j = false)
    (hgo : Ends check key (.top ⟨pn, up, b + 1, c &&& ~~~((1 : TKey) <<< b),
      min q (pn.pos + pn.bits - 1 - b)⟩) r) :
    Ends check key (.backtrace ⟨pn, up, k, c, q⟩) r := by
  have hwithin : pn.pos + pn.bits ≤ 32 := hin.ok.within
  have hkb : k ≤ b := by
    by_contra hlt
    rw [hspot.low b (Nat.lt_of_not_le hlt)] at hone
    cases hone
  obtain ⟨⟨hle, hge⟩, hskip, hset⟩ := chopWhile_spec c pn.bits (k := k + 1)
    (by omega : pn.bits ≤ 32) (by omega) (by omega) (by omega)
  have hchop : chopWhile c pn.bits pn.bits (k + 1) = b + 1 := by
    apply Nat.le_antisymm
    · by_contra hlt
      rw [hskip b (by omega) (by omega)] at hone
      cases hone
    · by_contra hlt
      have hbit := hset (by omega)
      rw [hzero _ (by omega)] at hbit
      cases hbit
  have hlimit : (BitVec.ofNat 32 (pn.pos + pn.bits) - BitVec.ofNat 32 (b + 1)).toNat =
      pn.pos + pn.bits - 1 - b := by
    simp only [BitVec.toNat_sub, BitVec.toNat_ofNat]
    omega
  have hmin : (if q > pn.pos + pn.bits - 1 - b then pn.pos + pn.bits - 1 - b else q) =
      min q (pn.pos + pn.bits - 1 - b) := by
    split <;> omega
  apply Ends.backtrace
  simp only [Search.back, hchop, hlimit, hmin]
  rw [if_pos (by omega)]
  exact hgo

end Back

section Prune

variable {cn : Tnode α} {q : ℕ} {l : TKey × α}

/-- A node that skips a bit which is set, behind all prefixes in it. -/
theorem Tnode.Ok.not_covers_of_skipped (hok : cn.Ok) (hq : q ≤ cn.pos)
    (hwithin : Within key q cn.node) (hset : tkeyExtractBits cn.key q (cn.pos - q) ≠ 0)
    (hl : l ∈ cn.node.leaves) : ¬ Covers key l.1 := by
  intro hk
  have hle : cn.pos + cn.bits ≤ 32 := hok.within
  apply hset
  rw [← BitVec.toNat_inj, toNat_tkeyExtractBits _ (by omega)]
  exact field_eq_zero fun p hlo hhi =>
    (hok.agree hl p (by omega)).symm.trans (hwithin l hl hk p hlo)

/-- A node without a first child, where all prefixes have ended before. -/
theorem Tnode.Ok.not_covers_of_null (hok : cn.Ok) (hq : q ≤ cn.pos)
    (hwithin : Within key q cn.node) (hnull : (cn.child 0).isNull = true)
    (hl : l ∈ cn.node.leaves) : ¬ Covers key l.1 := by
  intro hk
  obtain ⟨j, hj, hmem⟩ := mem_leaves_node.mp hl
  have hfield := ((hok.fits j hj).keys l hmem).2
  rw [field_eq_zero fun p hlo _ => hwithin l hl hk p (hq.trans hlo)] at hfield
  rw [← hfield, ((hok.kept 0 (Nat.two_pow_pos _)).leaves_eq_nil_iff).mpr hnull] at hmem
  cases hmem

end Prune

theorem prefMismatch_eq_zero_iff {own : TKey} {pos : ℕ} :
    maskPfx (own ^^^ key) pos = 0 ↔ Agree own key pos := by
  rw [maskPfx_eq_keep]
  constructor
  · intro h p hp
    have hbit := congrArg (fun x : TKey => x.getMsbD p) h
    simp only [getMsbD_keep, decide_eq_true hp, Bool.true_and, BitVec.getMsbD_xor] at hbit
    exact bne_eq_false_iff_eq.mp (hbit.trans BitVec.getMsbD_zero)
  · intro h
    apply BitVec.eq_of_getMsbD_eq
    intro p _
    rw [getMsbD_keep, BitVec.getMsbD_xor]
    by_cases hp : p < pos
    · rw [h p hp]
      simp
    · rw [decide_eq_false hp, Bool.false_and]
      exact BitVec.getMsbD_zero.symm

/-- The first bit in which a node's key differs from the address. -/
theorem prefMismatch_spec {own : TKey} {pos : ℕ} (h : maskPfx (own ^^^ key) pos ≠ 0) :
    32 - fls (maskPfx (own ^^^ key) pos) - 1 < pos ∧
      own.getMsbD (32 - fls (maskPfx (own ^^^ key) pos) - 1) ≠
        key.getMsbD (32 - fls (maskPfx (own ^^^ key) pos) - 1) := by
  obtain ⟨-, hset, -⟩ := fls_spec h
  generalize 32 - fls (maskPfx (own ^^^ key) pos) - 1 = mp at hset
  rw [maskPfx_eq_keep, getMsbD_keep, Bool.and_eq_true, decide_eq_true_eq,
    BitVec.getMsbD_xor] at hset
  exact ⟨hset.1, bne_iff_ne.mp hset.2⟩

/-- The search through a node finds what its leaves answer, and else goes up. -/
def Node.Explored (check : TKey → α → Option β) (key : TKey) : Node α → Prop
  | .tnode head child => ∀ (up : List (Tnode α)) (lo hi : ℕ) (r : Option β),
      Entered key ⟨head, child⟩ lo hi → hi ≤ 32 → Within key hi (.tnode head child) →
      (∀ q, lo ≤ q → q ≤ hi → Goes check key ⟨head, child⟩ r q up) →
      ∀ c, Ends check key (.top ⟨⟨head, child⟩, up, 0, c, hi⟩)
        ((answer check (Node.tnode head child).leaves).or r)
  | _ => True

section Visit

variable {pn : Tnode α} {up : List (Tnode α)} {lo hi k q : ℕ} {c i : TKey}

theorem Spot.lt (hspot : Spot key pn lo hi k i q) : i.toNat < 2 ^ pn.bits := by
  obtain ⟨m, hm⟩ := hspot.index
  rw [hm]
  exact field_lt

/-- A child that the search comes back from has let enough of the prefix length over. -/
theorem Spot.comeBack (cn : Tnode α) {new q' : ℕ} (hin : Entered key pn lo hi)
    (hspot : Spot key pn lo hi k i q) (hchild : pn.child i.toNat = cn.node)
    (hthere : cn.node.Kept)
    (hnew : new = q ∨ cn.pos ≤ q ∧ new < cn.pos ∧ cn.key.getMsbD new ≠ key.getMsbD new)
    (hlo : min new (cn.pos - 1) ≤ q') (hhi : q' ≤ new) : Spot key pn lo hi 0 i q' := by
  have hfits := hin.ok.fits _ hspot.lt
  rw [hchild] at hfits
  obtain ⟨hown, hfield⟩ := hfits.own_key hthere rfl
  change Agree cn.key pn.key pn.pos at hown
  change field cn.key pn.pos pn.bits = i.toNat at hfield
  have hbehind : pn.pos + pn.bits ≤ cn.pos := hfits.behind
  have hbits := hin.ok.bits_pos
  obtain ⟨m, hm⟩ := hspot.index
  have hlt := hin.lo_lt
  refine ⟨⟨m, hm⟩, fun j hj => absurd hj (Nat.not_lt_zero j), Nat.zero_le _, ?_, ?_, ?_⟩
  · have hle : lo ≤ new := by
      rcases hnew with rfl | ⟨hge, hpos, hmiss⟩
      · exact hspot.lo_le
      · have hhi' := hspot.le_hi
        rcases hin.agree (by omega) with hagree | hzero
        · by_contra hnot
          exact hmiss (((hown.trans hagree) new (by omega)))
        · omega
    omega
  · rcases hnew with rfl | ⟨hge, hpos, -⟩
    · exact hhi.trans hspot.le_hi
    · have hhi' := hspot.le_hi
      omega
  · by_cases hfar : cn.pos ≤ q' + 1
    · exact .inl fun b _ => by omega
    have hle : new ≤ q' := by omega
    rcases hnew with rfl | ⟨hge, hpos, hmiss⟩
    · rcases hspot.room with hroom | hroom
      · exact .inl fun b hb => by
          have hlast := hroom b hb
          omega
      · exact .inr (hroom.mono hle)
    · rcases Nat.lt_or_ge new pn.pos with hfront | hback
      · rw [hown new hfront] at hmiss
        exact .inr ((within_mismatch (fun l hl => hin.ok.agree hl) hfront hmiss).mono hle)
      · refine .inl fun b hb => ?_
        by_contra hroom
        rw [getLsbD_of_index hm, Bool.and_eq_true, Bool.and_eq_true, decide_eq_true_eq,
          decide_eq_true_eq] at hb
        obtain ⟨hbb, hbm, -⟩ := hb
        have hbit := field_eq_iff.mp (hfield.trans hm) new hback (by omega)
        rw [getMsbD_keep, decide_eq_true (by omega), Bool.true_and] at hbit
        exact hmiss hbit

/-- A node with no prefix of the address has no answer. -/
theorem answer_of_not_covers (hcheck : ∀ k list, check k list ≠ none → Covers key k)
    {ls : List (TKey × α)} (h : ∀ l ∈ ls, ¬ Covers key l.1) : answer check ls = none := by
  apply answer_eq_none
  intro l hl
  by_contra hne
  exact h l hl (hcheck _ _ hne)

/-- A child that the search enters is explored, and the search comes back from it. -/
theorem enter {head : TnodeHead} {child : ℕ → Node α} {new : ℕ} (hin : Entered key pn lo hi)
    (hspot : Spot key pn lo hi k i q) (hn : pn.child i.toNat = .tnode head child)
    (hkept : (Node.tnode head child).Kept) (hchild : (Node.tnode head child).Explored check key)
    (hback : ∀ k' q', Spot key pn lo hi k' i q' →
      Ends check key (.backtrace ⟨pn, up, k', i, q'⟩) r)
    (hle : new ≤ 32) (hnew : Within key new (.tnode head child))
    (hagree : head.pos < new → Agree head.key key head.pos)
    (hchoice : new = q ∨
      head.pos ≤ q ∧ new < head.pos ∧ head.key.getMsbD new ≠ key.getMsbD new) (c : TKey) :
    Ends check key (.top ⟨⟨head, child⟩, pn :: up, 0, c, new⟩)
      ((answer check (Node.tnode head child).leaves).or r) := by
  obtain ⟨hcn, -⟩ := kept_tnode.mp hkept
  have hfits := hin.ok.fits _ hspot.lt
  rw [hn] at hfits
  have hbehind : pn.pos + pn.bits ≤ head.pos := hfits.behind
  have hbits := hin.ok.bits_pos
  refine hchild (pn :: up) (min new (head.pos - 1)) new r
    ⟨hcn, Nat.min_le_left _ _, .inl (show _ ≤ head.pos by omega), fun hlt => .inl (hagree hlt)⟩
    hle hnew ?_ c
  intro q' hlo' hhi'
  have hslot : tkeyExtractBits head.key pn.pos pn.bits = i := by
    apply BitVec.eq_of_toNat_eq
    rw [toNat_tkeyExtractBits _ hin.ok.within]
    exact (hfits.own_key hkept rfl).2
  change Ends check key (.backtrace ⟨pn, up, 0, tkeyExtractBits head.key pn.pos pn.bits, q'⟩) r
  rw [hslot]
  exact hback 0 q' (hspot.comeBack ⟨head, child⟩ hin hn hkept hchoice hlo' hhi')

/-- One slot is looked at. -/
theorem visit (hcheck : ∀ k list, check k list ≠ none → Covers key k)
    (hin : Entered key pn lo hi) (hhi : hi ≤ 32) (hspot : Spot key pn lo hi k i q)
    (hindex : (if k = 0 then tkeyExtractBits (maskPfx key q) pn.pos pn.bits else c) = i)
    (hwithin : Within key q (pn.child i.toNat))
    (hchild : (pn.child i.toNat).Explored check key)
    (hback : ∀ k' q', Spot key pn lo hi k' i q' →
      Ends check key (.backtrace ⟨pn, up, k', i, q'⟩) r) :
    Ends check key (.top ⟨pn, up, k, c, q⟩)
      ((answer check (pn.child i.toNat).leaves).or r) := by
  have hkept := hin.ok.kept _ hspot.lt
  have hfits := hin.ok.fits _ hspot.lt
  have hstay := hback k q hspot
  apply Ends.top
  simp only [Search.descend, hindex]
  cases hn : pn.child i.toNat with
  | null => exact hstay
  | leaf own list =>
      have hanswer : answer check (Node.leaf own list).leaves = check own list := by
        simp [answer, Node.leaves]
      rw [hanswer]
      cases hown : check own list with
      | none => simpa [hown] using hstay
      | some b => simpa [hown] using ends_done
  | tnode head child =>
      rw [hn] at hkept hfits hwithin hchild
      obtain ⟨hcn, -⟩ := kept_tnode.mp hkept
      have hbehind : pn.pos + pn.bits ≤ head.pos := hfits.behind
      have hwithin' : head.pos + head.bits ≤ 32 := hcn.within
      have hprune (hnone : ∀ l ∈ (Node.tnode head child).leaves, ¬ Covers key l.1) :
          Ends check key (.backtrace ⟨pn, up, k, i, q⟩)
            ((answer check (Node.tnode head child).leaves).or r) := by
        rw [answer_of_not_covers hcheck hnone, Option.none_or]
        exact hstay
      dsimp only
      split
      next hdead =>
        obtain ⟨hlt, hset | hnull⟩ := hdead
        · exact hprune fun l hl =>
            hcn.not_covers_of_skipped (by change q ≤ head.pos; omega) hwithin hset hl
        · exact hprune fun l hl =>
            hcn.not_covers_of_null (by change q ≤ head.pos; omega) hwithin hnull hl
      next =>
        have hq := hspot.le_hi.trans hhi
        split
        next hmis =>
          obtain ⟨hmp, hmiss⟩ := prefMismatch_spec hmis
          have hshort : Within key _ (Node.tnode head child) :=
            within_mismatch (fun l hl => hcn.agree hl) hmp hmiss
          split
          next hset =>
            exact hprune fun l hl => hcn.not_covers_of_skipped (Nat.le_of_lt hmp) hshort hset hl
          next =>
            split
            next hge =>
              exact enter hin hspot hn hkept hchild hback (by omega) hshort
                (fun hlt => absurd hlt (by omega)) (.inr ⟨hge, hmp, hmiss⟩) _
            next hlt =>
              exact enter hin hspot hn hkept hchild hback hq hwithin
                (fun hlt' => absurd hlt' (by omega)) (.inl rfl) _
        next hmis =>
          exact enter hin hspot hn hkept hchild hback hq hwithin
            (fun _ => prefMismatch_eq_zero_iff.mp (not_not.mp hmis)) (.inl rfl) _

end Visit

section Explore

variable {pn : Tnode α} {up : List (Tnode α)} {lo hi : ℕ}

/-- A leaf with an answer is in no slot between a number and the same number without the lowest
bit that is set. -/
theorem Tnode.Ok.check_between (hcheck : ∀ k list, check k list ≠ none → Covers key k)
    (hok : pn.Ok) {p j : ℕ} (hlo : field (keep key p) pn.pos pn.bits < j)
    (hhi : j < field (keep key (p + 1)) pn.pos pn.bits) {l : TKey × α}
    (hl : l ∈ (pn.child j).leaves) : check l.1 l.2 = none := by
  by_contra hne
  obtain ⟨m, hm⟩ := hok.slot_of_covers (hhi.trans field_lt) hl (hcheck _ _ hne)
  rcases Nat.lt_or_ge p m with hlt | hge
  · exact absurd hhi (not_lt_of_ge (hm ▸ field_keep_mono hlt))
  · exact absurd hlo (not_lt_of_ge (hm ▸ field_keep_mono hge))

/-- What chopping off the lowest bit that is set leaves: the rest of the number, and a prefix
length that bounds the prefixes in its slot. -/
theorem Spot.chop {c : TKey} {k q b : ℕ} (hspot : Spot key pn lo hi k c q)
    (hin : Entered key pn lo hi) (hb : b < pn.bits) (hone : c.getLsbD b = true)
    (hlow : ∀ j < b, c.getLsbD j = false) :
    Spot key pn lo hi (b + 1) (c &&& ~~~((1 : TKey) <<< b))
        (min q (pn.pos + pn.bits - 1 - b)) ∧
      Within key (min q (pn.pos + pn.bits - 1 - b))
        (pn.child (c &&& ~~~((1 : TKey) <<< b)).toNat) := by
  obtain ⟨m, hm⟩ := hspot.index
  have hwithin := hin.ok.within
  obtain ⟨hkey, hpm, -⟩ := index_eq_of_lowest hm hb hone hlow
  have hclear := toNat_clear hwithin hm hb hone hlow
  have hlo := hin.lo_lt
  have hqlo := hspot.lo_le
  have hqhi := hspot.le_hi
  have hslot : (c &&& ~~~((1 : TKey) <<< b)).toNat < 2 ^ pn.bits := by
    rw [hclear]
    exact field_lt
  have hcut := hin.ok.within_cleared hslot hclear (by omega) (by omega) hkey
  have hzeros : ∀ j < b + 1, (c &&& ~~~((1 : TKey) <<< b)).getLsbD j = false := by
    intro j hj
    rw [getLsbD_clear c (by omega)]
    rcases Nat.lt_succ_iff_lt_or_eq.mp hj with hlt | rfl
    · rw [hlow j hlt, Bool.false_and]
    · rw [decide_eq_true rfl, Bool.not_true, Bool.and_false]
  have hones : ∀ j, (c &&& ~~~((1 : TKey) <<< b)).getLsbD j = true → b < j := by
    intro j hj
    by_contra hle
    rw [hzeros j (by omega)] at hj
    cases hj
  rcases hspot.room with hroom | hroom
  · rw [Nat.min_eq_right (by have hlast := hroom b hone; omega)]
    refine ⟨⟨⟨_, hclear⟩, hzeros, hb, by omega, ?_, .inl fun j hj => ?_⟩, hcut⟩
    · have hlast := hroom b hone
      omega
    · have hlater := hones j hj
      omega
  · by_cases hle : pn.pos + pn.bits - 1 - b ≤ q
    · rw [Nat.min_eq_right hle]
      refine ⟨⟨⟨_, hclear⟩, hzeros, hb, by omega, by omega, .inl fun j hj => ?_⟩, hcut⟩
      have hlater := hones j hj
      omega
    · rw [Nat.min_eq_left (by omega)]
      exact ⟨⟨⟨_, hclear⟩, hzeros, hb, hqlo, hqhi, .inr hroom⟩, hroom.child pn hslot⟩

/-- **Going back.**  By induction on the number of the slot: the slots with smaller numbers are
searched from the last one on, as far as prefixes of the address can be in them. -/
theorem explore_back (hcheck : ∀ k list, check k list ≠ none → Covers key k)
    (hin : Entered key pn lo hi) (hhi : hi ≤ 32)
    (hchild : ∀ i < 2 ^ pn.bits, (pn.child i).Explored check key)
    (hup : ∀ q, lo ≤ q → q ≤ hi → Goes check key pn r q up) (n : ℕ) :
    ∀ {c : TKey} {k q : ℕ}, c.toNat = n → Spot key pn lo hi k c q →
      Ends check key (.backtrace ⟨pn, up, k, c, q⟩)
        ((answer check ((List.range n).flatMap fun i => (pn.child i).leaves)).or r) := by
  induction n using Nat.strong_induction_on with
  | _ n ih =>
  intro c k q hn hspot
  obtain ⟨m, hm⟩ := hspot.index
  have hwithin := hin.ok.within
  by_cases hzero : ∀ b, c.getLsbD b = false
  · have hc : c = 0 := BitVec.eq_of_getLsbD_eq fun b _ => by rw [hzero b]; simp
    obtain rfl : n = 0 := by rw [← hn, hc]; rfl
    exact back_climb hin hspot hhi hzero hup
  · have hset : ∃ b, c.getLsbD b = true := by
      by_contra hnone
      exact hzero fun b => Bool.eq_false_of_not_eq_true fun hb => hnone ⟨b, hb⟩
    -- the lowest bit that is set
    have hone : c.getLsbD (Nat.find hset) = true := Nat.find_spec hset
    have hlow : ∀ j < Nat.find hset, c.getLsbD j = false := fun j hj =>
      Bool.eq_false_of_not_eq_true (Nat.find_min hset hj)
    generalize Nat.find hset = b at hone hlow
    have hb : b < pn.bits := by
      rw [getLsbD_of_index hm, Bool.and_eq_true, decide_eq_true_eq] at hone
      exact hone.1
    obtain ⟨-, -, hfull⟩ := index_eq_of_lowest hm hb hone hlow
    have hclear := toNat_clear hwithin hm hb hone hlow
    have hless := toNat_clear_lt (c := c) (show b < 32 by omega) hone
    have hnext := hspot.chop hin hb hone hlow
    have hvisit := visit (c := c &&& ~~~((1 : TKey) <<< b)) hcheck hin hhi hnext.1
      (if_neg (Nat.succ_ne_zero b)) hnext.2 (hchild _ hnext.1.lt) fun k' q' hspot' =>
        ih _ (hn ▸ hless) rfl hspot'
    have hskip : answer check ((List.range n).flatMap fun i => (pn.child i).leaves) =
        answer check ((List.range ((c &&& ~~~((1 : TKey) <<< b)).toNat + 1)).flatMap
          fun i => (pn.child i).leaves) := by
      apply answer_range_eq (by omega)
      intro j hlo hhi' l hl
      refine hin.ok.check_between hcheck (p := pn.pos + pn.bits - 1 - b) ?_ ?_ hl
      · rw [← hclear]
        exact hlo
      · rw [← hfull, hn]
        exact hhi'
    rw [hskip, answer_range_succ, Option.or_assoc]
    exact back_chop hin hspot hb hone hlow hvisit

/-- By induction on the node: the slot of the prefix first, then those with smaller numbers. -/
theorem Node.Kept.explored (hcheck : ∀ k list, check k list ≠ none → Covers key k) {n : Node α}
    (hn : n.Kept) : n.Explored check key := by
  induction n with
  | null | leaf => trivial
  | tnode head child ih =>
      intro up lo hi r hin hhi hwithin hup c
      have hle := hin.ok.within
      have hindex : (tkeyExtractBits (maskPfx key hi) head.pos head.bits).toNat =
          field (keep key hi) head.pos head.bits := by
        rw [toNat_tkeyExtractBits _ hle, maskPfx_eq_keep]
      have hspot : Spot key ⟨head, child⟩ lo hi 0
          (tkeyExtractBits (maskPfx key hi) head.pos head.bits) hi :=
        ⟨⟨hi, hindex⟩, fun j hj => absurd hj (Nat.not_lt_zero j), Nat.zero_le _, hin.le_hi, le_rfl,
          .inr hwithin⟩
      have hchild : ∀ i < 2 ^ head.bits, (child i).Explored check key := fun i hi =>
        ih i (hin.ok.kept i hi)
      have hvisit := visit (c := c) hcheck hin hhi hspot (if_pos rfl)
        (hwithin.child ⟨head, child⟩ hspot.lt) (hchild _ hspot.lt) fun k' q' hspot' =>
          explore_back hcheck hin hhi hchild hup _ rfl hspot'
      have hskip : answer check (Node.tnode head child).leaves =
          answer check ((List.range ((tkeyExtractBits (maskPfx key hi) head.pos
            head.bits).toNat + 1)).flatMap fun i => (child i).leaves) := by
        apply answer_range_eq hspot.lt
        intro j hlo hlt l hl
        by_contra hne
        obtain ⟨m, hm⟩ := hcheck _ _ hne
        have hmono : field l.1 head.pos head.bits ≤ field (keep key hi) head.pos head.bits := by
          apply field_mono
          intro p _ _ hp
          rw [getMsbD_keep, Bool.and_eq_true, decide_eq_true_eq]
          constructor
          · by_contra hge
            rw [hwithin l (mem_leaves_tnode.mpr ⟨j, hlt, hl⟩) ⟨m, hm⟩ p (by omega)] at hp
            cases hp
          · rw [hm, getMsbD_keep, Bool.and_eq_true] at hp
            exact hp.2
        rw [((hin.ok.fits j hlt).keys l hl).2, ← hindex] at hmono
        omega
      rw [hskip, answer_range_succ, Option.or_assoc]
      exact hvisit

/-- **What `fib_table_lookup` finds.**  Where leaves answer only for prefixes of the address, the
search ends, and with the answer of the last leaf that has one. -/
theorem fibTableLookup_spec (hcheck : ∀ k list, check k list ≠ none → Covers key k) {t : Node α}
    (ht : t.Kept) : ∃ fuel, ∀ n, fuel ≤ n →
      fibTableLookup check key n t = some (answer check t.leaves) := by
  cases t with
  | null => exact ⟨0, fun _ _ => rfl⟩
  | leaf k list => exact ⟨0, fun _ _ => by simp [fibTableLookup, answer, Node.leaves]⟩
  | tnode head child =>
      have hin : Entered key ⟨head, child⟩ 0 32 :=
        ⟨(kept_tnode.mp ht).1, Nat.zero_le _, .inr rfl, fun _ => .inr rfl⟩
      obtain ⟨fuel, hfuel⟩ := ht.explored hcheck [] 0 32 none hin le_rfl (within_all _)
        (fun _ _ _ => rfl) 0
      rw [Option.or_none] at hfuel
      exact ⟨fuel, fun n hle => searchFrom_mono hle hfuel⟩

end Explore

end IpAugenblick.FibTrie
