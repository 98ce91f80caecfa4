/-
# Numbers and records as bytes

A number is stored lowest byte first by a little-endian machine and sent highest
byte first.  `leValue` and `beValue` read both back; `leBytes` is how the machine
stores it.  A message of records, all of one size, is cut into them by
`splitRecords`.
-/

import Mathlib.Algebra.Order.Ring.Nat
import Mathlib.Data.List.Basic

namespace IpAugenblick.Lib

/-! ## Numbers -/

/-- The number that bytes stand for, lowest byte first. -/
def leValue : List UInt8 → ℕ
  | [] => 0
  | b :: bs => b.toNat + 256 * leValue bs

/-- The lowest `w` bytes of a number, lowest byte first. -/
def leBytes : ℕ → ℕ → List UInt8
  | 0, _ => []
  | w + 1, n => UInt8.ofNat n :: leBytes w (n / 256)

/-- The number that bytes stand for, highest byte first. -/
def beValue (bs : List UInt8) : ℕ := leValue bs.reverse

@[simp]
theorem leValue_nil : leValue [] = 0 := rfl

@[simp]
theorem leValue_cons (b : UInt8) (bs : List UInt8) :
    leValue (b :: bs) = b.toNat + 256 * leValue bs := rfl

@[simp]
theorem length_leBytes (w n : ℕ) : (leBytes w n).length = w := by
  induction w generalizing n with
  | zero => rfl
  | succ w ih => rw [leBytes, List.length_cons, ih]

/-- Reading back what was stored. -/
theorem leValue_leBytes (w n : ℕ) : leValue (leBytes w n) = n % 256 ^ w := by
  induction w generalizing n with
  | zero => simp [leBytes, Nat.mod_one]
  | succ w ih =>
      have hlow : (UInt8.ofNat n).toNat = n % 256 := UInt8.toNat_ofNat'
      rw [leBytes, leValue_cons, ih, hlow, Nat.pow_succ', Nat.mod_mul]

/-- Storing what was read. -/
theorem leBytes_leValue (bs : List UInt8) : leBytes bs.length (leValue bs) = bs := by
  induction bs with
  | nil => rfl
  | cons b bs ih =>
      have hb : b.toNat < 256 := b.toNat_lt
      have hlow : UInt8.ofNat (b.toNat + 256 * leValue bs) = b := by
        apply UInt8.toNat_inj.mp
        rw [UInt8.toNat_ofNat']
        omega
      have hhigh : (b.toNat + 256 * leValue bs) / 256 = leValue bs := by omega
      rw [List.length_cons, leValue_cons, leBytes, hlow, hhigh, ih]

theorem leValue_lt (bs : List UInt8) : leValue bs < 256 ^ bs.length := by
  rw [← leBytes_leValue bs, leValue_leBytes, length_leBytes]
  exact Nat.mod_lt _ (Nat.pow_pos (by decide))

/-- Bytes that are zero up to the last stand for the last. -/
theorem beValue_zeros (k : ℕ) (b : UInt8) : beValue (List.replicate k 0 ++ [b]) = b.toNat := by
  have hzeros : leValue (List.replicate k 0) = 0 := by
    induction k with
    | zero => rfl
    | succ k ih =>
        rw [List.replicate_succ, leValue_cons, ih]
        rfl
  simp [beValue, hzeros]

/-! ## Records -/

/-- Cut bytes into records of `size` bytes, `fuel` of them at most. -/
def recordsOf (size : ℕ) : ℕ → List UInt8 → Option (List (List UInt8))
  | _, [] => some []
  | 0, _ :: _ => none
  | fuel + 1, b :: bs =>
      if size ≤ (b :: bs).length then
        (recordsOf size fuel ((b :: bs).drop size)).map ((b :: bs).take size :: ·)
      else none

/-- Cut bytes into records of `size` bytes; `none` when the last one is not whole. -/
def splitRecords (size : ℕ) (bs : List UInt8) : Option (List (List UInt8)) :=
  recordsOf size bs.length bs

/-- The length of records of one size. -/
theorem length_flatten_records {size : ℕ} {rs : List (List UInt8)}
    (hrs : ∀ r ∈ rs, r.length = size) : rs.flatten.length = rs.length * size := by
  induction rs with
  | nil => simp
  | cons r rs ih =>
      have hrest := ih fun r hmem => hrs r (List.mem_cons_of_mem _ hmem)
      rw [List.flatten_cons, List.length_append, hrest, hrs r List.mem_cons_self,
        List.length_cons, Nat.add_mul, Nat.one_mul, Nat.add_comm]

theorem recordsOf_flatten {size fuel : ℕ} {rs : List (List UInt8)} (hsize : 0 < size)
    (hrs : ∀ r ∈ rs, r.length = size) (hfuel : rs.length ≤ fuel) :
    recordsOf size fuel rs.flatten = some rs := by
  induction rs generalizing fuel with
  | nil => cases fuel <;> rfl
  | cons r rs ih =>
      have hr : r.length = size := hrs r List.mem_cons_self
      obtain ⟨b, bs, rfl⟩ := List.exists_cons_of_length_pos (hr ▸ hsize)
      cases fuel with
      | zero => simp at hfuel
      | succ fuel =>
          have hrest := ih (fun r hmem => hrs r (List.mem_cons_of_mem _ hmem))
            (Nat.le_of_succ_le_succ hfuel)
          have hle : size ≤ (b :: bs ++ rs.flatten).length := by
            rw [List.length_append, hr]
            exact Nat.le_add_right _ _
          rw [List.flatten_cons, List.cons_append, recordsOf, ← List.cons_append, if_pos hle,
            List.drop_left' hr, List.take_left' hr, hrest]
          rfl

/-- A message of records is cut into its records. -/
theorem splitRecords_flatten {size : ℕ} {rs : List (List UInt8)} (hsize : 0 < size)
    (hrs : ∀ r ∈ rs, r.length = size) : splitRecords size rs.flatten = some rs := by
  apply recordsOf_flatten hsize hrs
  induction rs with
  | nil => exact le_rfl
  | cons r rs ih =>
      have hr : 0 < r.length := hrs r List.mem_cons_self ▸ hsize
      have hrest := ih fun r hmem => hrs r (List.mem_cons_of_mem _ hmem)
      rw [List.length_cons, List.flatten_cons, List.length_append]
      omega

/-- Reading a field off the front of what follows it. -/
theorem splitAt_append {α : Type*} {n : ℕ} {xs ys : List α} (h : xs.length = n) :
    (xs ++ ys).splitAt n = (xs, ys) := by
  rw [List.splitAt_eq, List.take_left' h, List.drop_left' h]

end IpAugenblick.Lib
