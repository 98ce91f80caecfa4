/-
# The checksum

`csum_partial_generic` adds the words of a buffer in an `int`, thirty-two bytes a
round, then eight, then two, and folds the carries in between; `fold16` is `REDUCE`.
A buffer at an odd address is read from its second byte on, with the bytes of every
word swapped.

Nothing is folded when the rounds of eight leave no byte of a buffer at an even
address, and nothing during the rounds, so the sum may lose a carry or leave `int`.
-/

import IpAugenblick.Lib.Bytes
import IpAugenblick.Lib.OnesComplement

namespace IpAugenblick

open Lib

/-! ## The source -/

/-- A value for an `int`; `none` when it is beyond. -/
def intSum (n : ℕ) : Option ℕ := if n < 2 ^ 31 then some n else none

/-- The locals of `csum_partial_generic`: `w` is the part of the buffer from there on. -/
structure CsumLoop where
  mlen : ℤ
  sum : ℕ
  w : List UInt8
  deriving DecidableEq, Repr

/-- `sum += w[0]` to `w[n - 1]`, and `w += n`. -/
def addWords : ℕ → ℕ → List UInt8 → Option (ℕ × List UInt8)
  | 0, sum, w => some (sum, w)
  | n + 1, sum, w => (intSum (sum + leValue (w.take 2))).bind fun sum => addWords n sum (w.drop 2)

/-- `while ((mlen -= 2 * n) >= 0)`, with `n` words a round. -/
def CsumLoop.rounds (n : ℕ) : ℕ → CsumLoop → Option CsumLoop
  | 0, _ => none
  | fuel + 1, l =>
      let mlen := l.mlen - 2 * n
      if 0 ≤ mlen then
        (addWords n l.sum l.w).bind fun (sum, w) => CsumLoop.rounds n fuel ⟨mlen, sum, w⟩
      else some { l with mlen }

/-- The rounds of thirty-two bytes and of eight. -/
def CsumLoop.unrolled (l : CsumLoop) : Option CsumLoop :=
  (l.rounds 16 (l.w.length + 1)).bind fun l =>
    ({ l with mlen := l.mlen + 32 }.rounds 4 (l.w.length + 1)).map
      fun (l : CsumLoop) => { l with mlen := l.mlen + 8 }

/-- What `csum_partial_generic` does behind the rounds of eight bytes; `first` is the byte in
front of the buffer's even part. -/
def csumTail (byteSwapped : Bool) (first : UInt8) (l : CsumLoop) : Option ℕ :=
  ({ l with sum := fold16 l.sum }.rounds 1 (l.w.length + 1)).bind fun l =>
    if byteSwapped then
      (intSum (fold16 l.sum * 256)).bind fun sum =>
        let c₁ := if l.mlen = -1 then l.w.headD 0 else 0
        (intSum (sum + leValue [first, c₁])).map fold16
    else if l.mlen = -1 then
      (intSum (l.sum + leValue [l.w.headD 0, 0])).map fold16
    else some (fold16 l.sum)

/-- The first byte of a buffer at an odd address. -/
def CsumLoop.evenBoundary (byteSwapped : Bool) (bytes : List UInt8) (sum : ℕ) : Option CsumLoop :=
  if byteSwapped then
    (intSum (fold16 sum * 256)).map fun sum => ⟨bytes.length - 1, sum, bytes.tail⟩
  else some ⟨bytes.length, sum, bytes⟩

/-- `csum_partial_generic` of a buffer at the address `src`; `none` when `sum` is no longer a value
of `int` that is not negative. -/
def csumPartialGeneric (src : ℕ) (bytes : List UInt8) (currsum : UInt32) : Option ℕ :=
  let byteSwapped : Bool := src % 2 = 1 ∧ 0 < bytes.length
  (intSum currsum.toNat).bind fun sum =>
    (CsumLoop.evenBoundary byteSwapped bytes sum).bind fun l =>
      l.unrolled.bind fun l =>
        if l.mlen = 0 ∧ byteSwapped = false then some (l.sum % 65536)
        else (csumTail byteSwapped (bytes.headD 0) l).map (· % 65536)

/-! ## The rounds -/

theorem intSum_of_lt {n : ℕ} (h : n < 2 ^ 31) : intSum n = some n := if_pos h

theorem intSum_of_le {n : ℕ} (h : 2 ^ 31 ≤ n) : intSum n = none := if_neg (Nat.not_lt_of_le h)

/-- Adding words overflows only if their sum does. -/
theorem addWords_eq {n sum : ℕ} {w : List UInt8} (hlen : 2 * n ≤ w.length) (hsum : sum < 2 ^ 31) :
    addWords n sum w =
      (intSum (sum + wordSum (w.take (2 * n)))).map fun total => (total, w.drop (2 * n)) := by
  induction n generalizing sum w with
  | zero => simp [addWords, intSum_of_lt hsum]
  | succ n ih =>
      obtain ⟨b, w, rfl⟩ := List.exists_cons_of_length_pos (Nat.lt_of_lt_of_le (by omega) hlen)
      rw [List.length_cons] at hlen
      obtain ⟨b', w, rfl⟩ := @List.exists_cons_of_length_pos _ w (by omega)
      rw [List.length_cons] at hlen
      have hword : leValue ((b :: b' :: w).take 2) = b.toNat + 256 * b'.toNat := by simp
      have htake : wordSum ((b :: b' :: w).take (2 * (n + 1))) =
          b.toNat + 256 * b'.toNat + wordSum (w.take (2 * n)) := by
        rw [Nat.mul_add, List.take_succ_cons, List.take_succ_cons, wordSum_cons_cons]
      rw [addWords, hword, htake, ← Nat.add_assoc sum (_ + _)]
      generalize sum + (b.toNat + 256 * b'.toNat) = next
      by_cases hnext : next < 2 ^ 31
      · rw [intSum_of_lt hnext, Option.bind_some]
        exact @ih next w (by omega) hnext
      · rw [intSum_of_le (Nat.le_of_not_lt hnext), intSum_of_le (by omega)]
        rfl

/-- The bytes that rounds of `n` words take of `len` bytes. -/
def roundBytes (n len : ℕ) : ℕ := 2 * n * (len / (2 * n))

theorem roundBytes_of_lt {n len : ℕ} (h : len < 2 * n) : roundBytes n len = 0 := by
  rw [roundBytes, Nat.div_eq_of_lt h, Nat.mul_zero]

theorem roundBytes_of_le {n len : ℕ} (hn : 0 < n) (h : 2 * n ≤ len) :
    roundBytes n len = 2 * n + roundBytes n (len - 2 * n) := by
  rw [roundBytes, Nat.div_eq_sub_div (Nat.mul_pos (by decide) hn) h, Nat.mul_add, Nat.mul_one,
    Nat.add_comm, roundBytes]

/-- A round and the rounds behind it. -/
theorem wordSum_take_round {n k : ℕ} {w : List UInt8} (h : 2 * n ≤ w.length) :
    wordSum (w.take (2 * n + k)) =
      wordSum (w.take (2 * n)) + wordSum ((w.drop (2 * n)).take k) := by
  have heven : (w.take (2 * n)).length % 2 = 0 := by
    rw [List.length_take, Nat.min_eq_left h, Nat.mul_mod_right]
  rw [List.take_add, wordSum_append heven]

/-- The loop takes whole rounds, and overflows only if their sum does. -/
theorem rounds_eq {n fuel sum : ℕ} {w : List UInt8} (hn : 0 < n) (hfuel : w.length < fuel)
    (hsum : sum < 2 ^ 31) :
    CsumLoop.rounds n fuel ⟨w.length, sum, w⟩ =
      (intSum (sum + wordSum (w.take (roundBytes n w.length)))).map fun total =>
        ⟨(w.length % (2 * n) : ℕ) - 2 * n, total, w.drop (roundBytes n w.length)⟩ := by
  induction fuel generalizing sum w with
  | zero => exact absurd hfuel (Nat.not_lt_zero _)
  | succ fuel ih =>
      rw [CsumLoop.rounds]
      by_cases hround : 2 * n ≤ w.length
      · have hmlen : (w.length : ℤ) - 2 * n = ((w.drop (2 * n)).length : ℕ) := by
          rw [List.length_drop]
          omega
        have hmod : w.length % (2 * n) = (w.drop (2 * n)).length % (2 * n) := by
          rw [List.length_drop]
          exact Nat.mod_eq_sub_mod hround
        have hlen : (w.drop (2 * n)).length < fuel := by
          rw [List.length_drop]
          omega
        simp only [hmlen, Int.natCast_nonneg, if_true]
        rw [addWords_eq hround hsum, roundBytes_of_le hn hround, wordSum_take_round hround,
          ← Nat.add_assoc, ← List.drop_drop, hmod, ← List.length_drop]
        generalize sum + wordSum (w.take (2 * n)) = next
        by_cases hnext : next < 2 ^ 31
        · rw [intSum_of_lt hnext]
          exact ih hlen hnext
        · rw [intSum_of_le (Nat.le_of_not_lt hnext), intSum_of_le (by omega)]
          rfl
      · have hlt : w.length < 2 * n := Nat.lt_of_not_le hround
        have hmlen : ¬ 0 ≤ (w.length : ℤ) - 2 * n := by omega
        simp only [hmlen, if_false]
        rw [roundBytes_of_lt hlt, Nat.mod_eq_of_lt hlt, List.take_zero, wordSum_nil, Nat.add_zero,
          intSum_of_lt hsum]
        rfl

/-- The unrolled loops take all words but the last three at most. -/
theorem unrolled_eq {sum : ℕ} {w : List UInt8} (hsum : sum < 2 ^ 31) :
    CsumLoop.unrolled ⟨w.length, sum, w⟩ =
      (intSum (sum + wordSum (w.take (8 * (w.length / 8))))).map fun total =>
        ⟨(w.length % 8 : ℕ), total, w.drop (8 * (w.length / 8))⟩ := by
  rw [CsumLoop.unrolled, rounds_eq (by decide) (Nat.lt_succ_self _) hsum]
  have hfirst : roundBytes 16 w.length ≤ w.length := Nat.mul_div_le _ _
  have hrest : (w.drop (roundBytes 16 w.length)).length = w.length % 32 := by
    rw [List.length_drop, roundBytes]
    omega
  have hbytes : 8 * (w.length / 8) = roundBytes 16 w.length + roundBytes 4 (w.length % 32) := by
    unfold roundBytes
    omega
  have hwords : wordSum (w.take (8 * (w.length / 8))) =
      wordSum (w.take (roundBytes 16 w.length)) +
        wordSum ((w.drop (roundBytes 16 w.length)).take (roundBytes 4 (w.length % 32))) := by
    have heven : (w.take (roundBytes 16 w.length)).length % 2 = 0 := by
      rw [List.length_take, Nat.min_eq_left hfirst, roundBytes]
      omega
    rw [hbytes, List.take_add, wordSum_append heven]
  rw [hwords, ← Nat.add_assoc, hbytes, ← List.drop_drop]
  generalize sum + wordSum (w.take (roundBytes 16 w.length)) = next
  by_cases hnext : next < 2 ^ 31
  · have hmlen : ((w.length % (2 * 16) : ℕ) : ℤ) - 2 * (16 : ℕ) + 32 =
        ((w.drop (roundBytes 16 w.length)).length : ℕ) := by
      rw [hrest]
      omega
    have hmod : ((w.length % 32 % (2 * 4) : ℕ) : ℤ) - 2 * (4 : ℕ) + 8 = (w.length % 8 : ℕ) := by
      omega
    simp only [intSum_of_lt hnext, Option.map_some, Option.bind_some, hmlen]
    rw [rounds_eq (by decide) (Nat.lt_succ_self _) hnext, hrest, Option.map_map]
    simp only [Function.comp_def, hmod]
  · rw [intSum_of_le (Nat.le_of_not_lt hnext), intSum_of_le (by omega)]
    rfl

/-! ## The last bytes -/

theorem wordSum_last {last : List UInt8} (h : last.length < 2) :
    wordSum last = (last.headD 0).toNat := by
  cases last with
  | nil => rfl
  | cons b rest =>
      have hrest : rest = [] := by
        apply List.eq_nil_of_length_eq_zero
        rw [List.length_cons] at h
        omega
      rw [hrest]
      rfl

/-- Behind the rounds of eight bytes there are three words at most and a last byte. -/
theorem csumTail_eq (byteSwapped : Bool) (first : UInt8) {sum : ℕ} {w : List UInt8}
    (hsum : sum < 2 ^ 31) (hw : w.length < 8) :
    ∃ total last, total ≤ 4 * 65535 ∧ last.length < 2 ∧
      total + wordSum last ≡ sum + wordSum w [MOD 65535] ∧
      csumTail byteSwapped first ⟨w.length, sum, w⟩ =
        if byteSwapped then
          (intSum (fold16 total * 256)).bind fun swapped =>
            (intSum (swapped + leValue [first, last.headD 0])).map fold16
        else if last.length = 1 then (intSum (total + leValue [last.headD 0, 0])).map fold16
        else some (fold16 total) := by
  have hbytes : roundBytes 1 w.length = 2 * (w.length / 2) := by rw [roundBytes]
  have hle : roundBytes 1 w.length ≤ w.length := Nat.mul_div_le _ _
  have hlast : (w.drop (roundBytes 1 w.length)).length = w.length % 2 := by
    rw [List.length_drop, hbytes]
    omega
  have hwords := @wordSum_take_add_drop w (roundBytes 1 w.length) (by omega) hle
  have hfew : wordSum (w.take (roundBytes 1 w.length)) ≤ 3 * 65535 := by
    have hlen : (w.take (roundBytes 1 w.length)).length = 2 * (w.length / 2) := by
      rw [List.length_take, Nat.min_eq_left hle, hbytes]
    have hbound := wordSum_le (w.take (roundBytes 1 w.length))
    rw [hlen] at hbound
    omega
  have hfold := fold16_le sum
  have hcong := fold16_modEq (Nat.lt_trans hsum (by decide))
  refine ⟨fold16 sum + wordSum (w.take (roundBytes 1 w.length)),
    w.drop (roundBytes 1 w.length), by omega, by omega, ?_, ?_⟩
  · rw [Nat.add_assoc, hwords]
    exact hcong.add_right _
  · have hlt : fold16 sum + wordSum (w.take (roundBytes 1 w.length)) < 2 ^ 31 := by omega
    have hodd : ((w.length % (2 * 1) : ℕ) : ℤ) - 2 * (1 : ℕ) = -1 ↔
        (w.drop (roundBytes 1 w.length)).length = 1 := by
      rw [hlast]
      omega
    have hpad : (if (w.drop (roundBytes 1 w.length)).length = 1 then
        (w.drop (roundBytes 1 w.length)).headD 0 else 0) =
          (w.drop (roundBytes 1 w.length)).headD 0 := by
      split
      next => rfl
      next hnone =>
        have hnil := List.eq_nil_of_length_eq_zero (l := w.drop (roundBytes 1 w.length)) (by omega)
        rw [hnil]
        rfl
    have hrounds := @rounds_eq 1 (w.length + 1) (fold16 sum) w Nat.one_pos (Nat.lt_succ_self _)
      (Nat.lt_of_le_of_lt hfold (by decide))
    rw [intSum_of_lt hlt, Option.map_some] at hrounds
    rw [csumTail]
    simp only [hrounds, Option.bind_some, hodd, hpad]

/-- The last bytes of a buffer at an even address. -/
theorem csumTail_plain (first : UInt8) {sum : ℕ} {w : List UInt8} (hsum : sum < 2 ^ 31)
    (hw : w.length < 8) :
    ∃ r, csumTail false first ⟨w.length, sum, w⟩ = some r ∧ r ≤ 65535 ∧
      r ≡ sum + wordSum w [MOD 65535] := by
  obtain ⟨total, last, htotal, hlast, hcong, htail⟩ := csumTail_eq false first hsum hw
  have hbyte := (last.headD 0).toNat_lt
  have hword : leValue [last.headD 0, 0] = wordSum last := by
    rw [wordSum_last hlast]
    rfl
  have hfits : total + wordSum last < 2 ^ 31 := by
    rw [wordSum_last hlast]
    omega
  have hfold := (fold16_modEq (Nat.lt_trans hfits (by decide))).trans hcong
  simp only [Bool.false_eq_true, if_false] at htail
  split at htail
  next =>
    rw [hword, intSum_of_lt hfits, Option.map_some] at htail
    exact ⟨_, htail, fold16_le _, hfold⟩
  next hnone =>
    have hnil := List.eq_nil_of_length_eq_zero (l := last) (by omega)
    rw [hnil, wordSum_nil, Nat.add_zero] at hfold
    exact ⟨_, htail, fold16_le _, hfold⟩

/-- The last bytes of a buffer at an odd address: the bytes of the sum are swapped back. -/
theorem csumTail_swapped (first : UInt8) {sum : ℕ} {w : List UInt8} (hsum : sum < 2 ^ 31)
    (hw : w.length < 8) :
    ∃ r, csumTail true first ⟨w.length, sum, w⟩ = some r ∧ r ≤ 65535 ∧
      r ≡ first.toNat + 256 * (sum + wordSum w) [MOD 65535] := by
  obtain ⟨total, last, htotal, hlast, hcong, htail⟩ := csumTail_eq true first hsum hw
  have hfirst := first.toNat_lt
  have hbyte := (last.headD 0).toNat_lt
  have hfold := fold16_le total
  have hword : leValue [first, last.headD 0] = first.toNat + 256 * wordSum last := by
    rw [wordSum_last hlast]
    rfl
  have hfits : fold16 total * 256 + leValue [first, last.headD 0] < 2 ^ 31 := by
    rw [hword, wordSum_last hlast]
    omega
  have htotalFold : fold16 total ≡ total [MOD 65535] := fold16_modEq (by omega)
  have hswap : fold16 total * 256 < 2 ^ 31 := Nat.lt_of_le_of_lt (Nat.le_add_right _ _) hfits
  simp only [if_true] at htail
  rw [intSum_of_lt hswap, Option.bind_some, intSum_of_lt hfits, Option.map_some] at htail
  refine ⟨_, htail, fold16_le _, ?_⟩
  calc fold16 (fold16 total * 256 + leValue [first, last.headD 0])
      ≡ fold16 total * 256 + leValue [first, last.headD 0] [MOD 65535] :=
        fold16_modEq (Nat.lt_trans hfits (by decide))
    _ ≡ total * 256 + leValue [first, last.headD 0] [MOD 65535] :=
        Nat.ModEq.add_right _ (htotalFold.mul_right 256)
    _ = first.toNat + 256 * (total + wordSum last) := by
        rw [hword]
        omega
    _ ≡ first.toNat + 256 * (sum + wordSum w) [MOD 65535] := (hcong.mul_left _).add_left _

/-! ## The whole buffer -/

/-- The sum is returned, up to carries that have been added back. -/
def CsumExact (src : ℕ) (bytes : List UInt8) (currsum : UInt32) : Prop :=
  ∃ r, csumPartialGeneric src bytes currsum = some r ∧
    r ≡ currsum.toNat + wordSum bytes [MOD 65535]

/-- Where the carries are not lost: from an even address, unless whole rounds of eight bytes take
the sum beyond sixteen bits; from an odd one, unless the rounds take the swapped sum beyond
`int`. -/
def CsumFits (src : ℕ) (bytes : List UInt8) (currsum : UInt32) : Prop :=
  if src % 2 = 1 ∧ 0 < bytes.length then
    256 * currsum.toNat + wordSum (bytes.tail.take (8 * ((bytes.length - 1) / 8))) < 2 ^ 31
  else bytes.length % 8 ≠ 0 ∨ currsum.toNat + wordSum bytes < 65536

instance (src : ℕ) (bytes : List UInt8) (currsum : UInt32) :
    Decidable (CsumFits src bytes currsum) :=
  inferInstanceAs (Decidable (if src % 2 = 1 ∧ 0 < bytes.length then
    256 * currsum.toNat + wordSum (bytes.tail.take (8 * ((bytes.length - 1) / 8))) < 2 ^ 31
    else bytes.length % 8 ≠ 0 ∨ currsum.toNat + wordSum bytes < 65536))

/-- The low half of a sum stands for it only if there is no carry. -/
theorem low_half_modEq_iff {n : ℕ} (hn : n < 2 ^ 31) :
    n % 65536 ≡ n [MOD 65535] ↔ n < 65536 := by
  unfold Nat.ModEq
  omega

section Buffer

variable {src : ℕ} {bytes : List UInt8} {currsum : UInt32}

/-- What the tail returns is returned, in sixteen bits. -/
theorem csumExact_of_tail {r : ℕ} {tail : Option ℕ} (htail : tail = some r) (hr : r ≤ 65535)
    (hcong : r ≡ currsum.toNat + wordSum bytes [MOD 65535])
    (hreturns : csumPartialGeneric src bytes currsum = tail.map (· % 65536)) :
    CsumExact src bytes currsum := by
  refine ⟨r, ?_, hcong⟩
  rw [hreturns, htail, Option.map_some, Nat.mod_eq_of_lt (Nat.lt_succ_of_le hr)]

/-- A buffer at an even address, or an empty one. -/
theorem csumExact_even (hlen : bytes.length ≤ 65535) (hcurrsum : currsum.toNat ≤ 0xffff)
    (heven : ¬ (src % 2 = 1 ∧ 0 < bytes.length)) :
    CsumExact src bytes currsum ↔
      bytes.length % 8 ≠ 0 ∨ currsum.toNat + wordSum bytes < 65536 := by
  have hrounds := @wordSum_take_add_drop bytes (8 * (bytes.length / 8)) (by omega) (by omega)
  have htake : (bytes.take (8 * (bytes.length / 8))).length = 8 * (bytes.length / 8) := by
    rw [List.length_take]
    omega
  have hrest : (bytes.drop (8 * (bytes.length / 8))).length = bytes.length % 8 := by
    rw [List.length_drop]
    omega
  have hstart : currsum.toNat < 2 ^ 31 := by omega
  have hfits : currsum.toNat + wordSum (bytes.take (8 * (bytes.length / 8))) < 2 ^ 31 := by
    have hbound := wordSum_le (bytes.take (8 * (bytes.length / 8)))
    rw [htake] at hbound
    omega
  have hreturns : csumPartialGeneric src bytes currsum =
      if bytes.length % 8 = 0 then
        some ((currsum.toNat + wordSum (bytes.take (8 * (bytes.length / 8)))) % 65536)
      else (csumTail false (bytes.headD 0) ⟨(bytes.length % 8 : ℕ),
        currsum.toNat + wordSum (bytes.take (8 * (bytes.length / 8))),
        bytes.drop (8 * (bytes.length / 8))⟩).map (· % 65536) := by
    simp only [csumPartialGeneric, heven, decide_false, intSum_of_lt hstart, Option.bind_some,
      CsumLoop.evenBoundary, Bool.false_eq_true, if_false, unrolled_eq hstart, intSum_of_lt hfits,
      Option.map_some, and_true, Int.natCast_eq_zero]
  by_cases hwhole : bytes.length % 8 = 0
  · have hall : bytes.take (8 * (bytes.length / 8)) = bytes := List.take_of_length_le (by omega)
    rw [hall] at hreturns hfits
    rw [if_pos hwhole] at hreturns
    rw [← low_half_modEq_iff hfits]
    constructor
    · rintro ⟨r, hr, hcong⟩
      rw [hreturns, Option.some.injEq] at hr
      exact Or.inr (hr ▸ hcong)
    · rintro (hnot | hcong)
      · exact absurd hwhole hnot
      · exact ⟨_, hreturns, hcong⟩
  · rw [if_neg hwhole, ← hrest] at hreturns
    obtain ⟨r, htail, hr, hcong⟩ := csumTail_plain (bytes.headD 0) hfits
      (w := bytes.drop (8 * (bytes.length / 8))) (by omega)
    rw [Nat.add_assoc, hrounds] at hcong
    exact iff_of_true (csumExact_of_tail htail hr hcong hreturns) (Or.inl hwhole)

/-- A buffer at an odd address. -/
theorem csumExact_odd (hcurrsum : currsum.toNat ≤ 0xffff)
    (hodd : src % 2 = 1 ∧ 0 < bytes.length) :
    CsumExact src bytes currsum ↔
      256 * currsum.toNat + wordSum (bytes.tail.take (8 * ((bytes.length - 1) / 8))) < 2 ^ 31 := by
  obtain ⟨first, rest, rfl⟩ := List.exists_cons_of_length_pos hodd.2
  have hstart : currsum.toNat < 2 ^ 31 := by omega
  have hswap : fold16 currsum.toNat * 256 < 2 ^ 31 := by
    rw [fold16_of_le hcurrsum]
    omega
  have hmlen : (((first :: rest).length : ℕ) : ℤ) - 1 = (rest.length : ℕ) := by simp
  have hreturns : csumPartialGeneric src (first :: rest) currsum =
      (intSum (256 * currsum.toNat + wordSum (rest.take (8 * (rest.length / 8))))).bind fun total =>
        (csumTail true first ⟨(rest.length % 8 : ℕ), total,
          rest.drop (8 * (rest.length / 8))⟩).map (· % 65536) := by
    simp only [csumPartialGeneric, hodd, and_self, decide_true, intSum_of_lt hstart,
      Option.bind_some, CsumLoop.evenBoundary, if_true, intSum_of_lt hswap, Option.map_some,
      hmlen, List.tail_cons, unrolled_eq hswap]
    rw [fold16_of_le hcurrsum, Nat.mul_comm currsum.toNat, Option.bind_map]
    simp only [Function.comp_def, Bool.true_eq_false, and_false, if_false, List.headD_cons]
  have hrest : (rest.drop (8 * (rest.length / 8))).length = rest.length % 8 := by
    rw [List.length_drop]
    omega
  have hrounds := @wordSum_take_add_drop rest (8 * (rest.length / 8)) (by omega) (by omega)
  rw [List.tail_cons, List.length_cons, Nat.add_sub_cancel]
  constructor
  · rintro ⟨r, hr, -⟩
    by_contra hover
    rw [hreturns, intSum_of_le (Nat.le_of_not_lt hover)] at hr
    cases hr
  · intro hfits
    obtain ⟨r, htail, hr, hcong⟩ := csumTail_swapped first hfits
      (w := rest.drop (8 * (rest.length / 8))) (by omega)
    rw [intSum_of_lt hfits, Option.bind_some, ← hrest] at hreturns
    refine csumExact_of_tail htail hr (hcong.trans ?_) hreturns
    calc first.toNat + 256 * (256 * currsum.toNat + wordSum (rest.take (8 * (rest.length / 8))) +
          wordSum (rest.drop (8 * (rest.length / 8))))
        = 65536 * currsum.toNat + (first.toNat + 256 * wordSum rest) := by
          rw [← hrounds]
          omega
      _ ≡ currsum.toNat + (first.toNat + 256 * wordSum rest) [MOD 65535] := by
          unfold Nat.ModEq
          omega
      _ ≡ currsum.toNat + wordSum (first :: rest) [MOD 65535] :=
          ((wordSum_cons_modEq first rest).symm).add_left _

end Buffer

/-- The sum is returned exactly where no carry is lost. -/
theorem csum_exact_iff (src : ℕ) (bytes : List UInt8) (currsum : UInt32)
    (hlen : bytes.length ≤ 65535) (hcurrsum : currsum.toNat ≤ 0xffff) :
    CsumExact src bytes currsum ↔ CsumFits src bytes currsum := by
  unfold CsumFits
  by_cases hodd : src % 2 = 1 ∧ 0 < bytes.length
  · rw [if_pos hodd]
    exact csumExact_odd hcurrsum hodd
  · rw [if_neg hodd]
    exact csumExact_even hlen hcurrsum hodd

/-- Five bytes at an odd address. -/
theorem csum_exact_five : CsumExact 1 [1, 2, 3, 4, 5] 0xffff :=
  (csum_exact_iff 1 [1, 2, 3, 4, 5] 0xffff (by decide) (by decide)).mpr (by decide)

/-- Eight bytes whose words come to 65536: the carry is lost. -/
theorem csum_not_exact : ¬ CsumExact 0 [0xff, 0xff, 1, 0, 0, 0, 0, 0] 0 := by
  rw [csumExact_even (by decide) (by decide) (by decide)]
  decide

end IpAugenblick
