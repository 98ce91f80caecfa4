/-
# Timers and delayed work

`mod_timer` turns the jiffies up to an expiry into ticks of the timer, in arithmetic
modulo 2^64: an expiry in the past is one far ahead.  `queue_delayed_work_on` and
`mod_delayed_work_on` hand over the expiry itself instead of the time up to it, and
do not divide by `HZ`.
-/

import Mathlib.Algebra.Order.Ring.Nat
import Mathlib.Data.Nat.Basic

namespace IpAugenblick

/-! ## The source -/

def HZ : UInt64 := 1000

/-- `rte_get_timer_hz` and `jiffies`. -/
structure Clock where
  hz : UInt64
  jiffies : UInt64
  deriving DecidableEq, Repr

/-- What `rte_timer_reset` is to call. -/
inductive TimerCallback
  | timerExpiryCbk
  | delayedWorkExpiryCbk
  deriving DecidableEq, Repr

/-- A call of `rte_timer_reset`. -/
structure TimerReset where
  ticks : UInt64
  callback : TimerCallback
  deriving DecidableEq, Repr

/-- `mod_timer`, given what `rte_timer_pending` and `rte_timer_reset` return. -/
def modTimer (clock : Clock) (expires : UInt64) (pending : Bool) (rc : ℤ) : TimerReset × Bool :=
  (⟨clock.hz * (expires - clock.jiffies) / HZ, .timerExpiryCbk⟩, rc ≠ 0 || pending)

/-- The timer of a `delayed_work`. -/
structure DelayedWork where
  expires : UInt64
  deriving DecidableEq, Repr

/-- `queue_delayed_work_on`, given what `rte_timer_reset` returns. -/
def queueDelayedWorkOn (clock : Clock) (work : DelayedWork) (delay : UInt64) (rc : ℤ) :
    DelayedWork × TimerReset × Bool :=
  let work := { work with expires := clock.jiffies + delay }
  (work, ⟨clock.hz * work.expires, .delayedWorkExpiryCbk⟩, rc = 0)

def modDelayedWorkOn (clock : Clock) (dwork : DelayedWork) (delay : UInt64) (rc : ℤ) :
    DelayedWork × TimerReset × Bool :=
  let dwork := { dwork with expires := clock.jiffies + delay }
  (dwork, ⟨clock.hz * dwork.expires, .delayedWorkExpiryCbk⟩, rc = 0)

/-! ## When a timer fires -/

section Ticks

variable (clock : Clock) (expires delay : UInt64) (pending : Bool) (work : DelayedWork) (rc : ℤ)

/-- `mod_timer` programs the time up to the expiry, and none for an expiry in the past. -/
structure ModTimerFires : Prop where
  ahead : clock.jiffies ≤ expires →
    (modTimer clock expires pending rc).1.ticks.toNat =
      clock.hz.toNat * (expires.toNat - clock.jiffies.toNat) / HZ.toNat
  past : expires < clock.jiffies → (modTimer clock expires pending rc).1.ticks = 0

/-- Timers and delayed work fire at the requested jiffy. -/
structure TimersFire : Prop extends ModTimerFires clock expires pending rc where
  queued : (queueDelayedWorkOn clock work delay rc).2.1.ticks =
    (modTimer clock (clock.jiffies + delay) pending rc).1.ticks
  modified : (modDelayedWorkOn clock work delay rc).2.1.ticks =
    (modTimer clock (clock.jiffies + delay) pending rc).1.ticks
  steady : ∀ jiffies, (queueDelayedWorkOn { clock with jiffies } work delay rc).2.1.ticks =
      (queueDelayedWorkOn clock work delay rc).2.1.ticks ∧
    (modDelayedWorkOn { clock with jiffies } work delay rc).2.1.ticks =
      (modDelayedWorkOn clock work delay rc).2.1.ticks
  noOverflow : delay.toNat < 86400 * HZ.toNat → clock.hz.toNat * delay.toNat < 2 ^ 64 ∧
    clock.hz.toNat * (clock.jiffies + delay).toNat < 2 ^ 64

/-- The expiries that `mod_timer` gets right: those ahead whose product fits 64 bits, and those
in the past whose product lies less than `HZ` below a multiple of 2^64. -/
def ExpiryFits : Prop :=
  (clock.jiffies ≤ expires ∧
      clock.hz.toNat * (expires.toNat - clock.jiffies.toNat) < 2 ^ 64) ∨
    (expires < clock.jiffies ∧
      ∃ q, clock.hz.toNat * (clock.jiffies.toNat - expires.toNat) ≤ q * 2 ^ 64 ∧
        q * 2 ^ 64 < clock.hz.toNat * (clock.jiffies.toNat - expires.toNat) + HZ.toNat)

/-- A remainder of 2^64 has the quotient by `HZ` of the number only if it is the number. -/
theorem mod_div_eq_iff (n : ℕ) : n % 2 ^ 64 / HZ.toNat = n / HZ.toNat ↔ n < 2 ^ 64 := by
  have hHZ : HZ.toNat = 1000 := rfl
  rw [hHZ]
  omega

/-- The ticks for an expiry ahead. -/
theorem modTimer_ahead (h : clock.jiffies ≤ expires) :
    (modTimer clock expires pending rc).1.ticks.toNat =
      clock.hz.toNat * (expires.toNat - clock.jiffies.toNat) % 2 ^ 64 / HZ.toNat := by
  rw [modTimer, UInt64.toNat_div, UInt64.toNat_mul, UInt64.toNat_sub_of_le _ _ h]

/-- The ticks for an expiry in the past. -/
theorem modTimer_past (h : expires < clock.jiffies) :
    (modTimer clock expires pending rc).1.ticks.toNat =
      clock.hz.toNat * (2 ^ 64 - (clock.jiffies.toNat - expires.toNat)) % 2 ^ 64 / HZ.toNat := by
  have hlt := UInt64.lt_iff_toNat_lt.mp h
  have hword := clock.jiffies.toNat_lt
  have hback : (expires - clock.jiffies).toNat =
      2 ^ 64 - (clock.jiffies.toNat - expires.toNat) := by
    rw [UInt64.toNat_sub]
    omega
  rw [modTimer, UInt64.toNat_div, UInt64.toNat_mul, hback]

/-- When the ticks for an expiry in the past come to none. -/
theorem past_none_iff {hz back : ℕ} (hback : back < 2 ^ 64) :
    hz * (2 ^ 64 - back) % 2 ^ 64 / HZ.toNat = 0 ↔
      ∃ q, hz * back ≤ q * 2 ^ 64 ∧ q * 2 ^ 64 < hz * back + HZ.toNat := by
  have hHZ : HZ.toNat = 1000 := rfl
  have hsum : hz * (2 ^ 64 - back) + hz * back = hz * 2 ^ 64 := by
    rw [← Nat.mul_add, Nat.sub_add_cancel (Nat.le_of_lt hback)]
  rw [hHZ]
  generalize hz * (2 ^ 64 - back) = ahead at hsum ⊢
  generalize hz * back = behind at hsum ⊢
  constructor
  · intro hnone
    refine ⟨hz - ahead / 2 ^ 64, ?_, ?_⟩ <;> omega
  · rintro ⟨q, hle, hlt⟩
    omega

/-- `mod_timer` is right exactly on the expiries that fit. -/
theorem modTimerFires_iff :
    ModTimerFires clock expires pending rc ↔ ExpiryFits clock expires := by
  have hback : clock.jiffies.toNat - expires.toNat < 2 ^ 64 :=
    Nat.lt_of_le_of_lt (Nat.sub_le _ _) clock.jiffies.toNat_lt
  rcases UInt64.le_or_lt clock.jiffies expires with hahead | hpast
  · have hnot : ¬ expires < clock.jiffies := UInt64.not_lt.mpr hahead
    constructor
    · intro hfires
      have hticks := hfires.ahead hahead
      rw [modTimer_ahead _ _ _ _ hahead, mod_div_eq_iff] at hticks
      exact Or.inl ⟨hahead, hticks⟩
    · rintro (⟨-, hfits⟩ | ⟨hpast, -⟩)
      · refine ⟨fun _ => ?_, fun hpast => absurd hpast hnot⟩
        rw [modTimer_ahead _ _ _ _ hahead]
        exact (mod_div_eq_iff _).mpr hfits
      · exact absurd hpast hnot
  · have hnot : ¬ clock.jiffies ≤ expires := UInt64.not_le.mpr hpast
    have hnone := @past_none_iff clock.hz.toNat _ hback
    rw [← modTimer_past _ _ pending rc hpast] at hnone
    constructor
    · intro hfires
      exact Or.inr ⟨hpast, hnone.mp (UInt64.toNat_inj.mpr (hfires.past hpast))⟩
    · rintro (⟨hahead, -⟩ | ⟨-, hfits⟩)
      · exact absurd hahead hnot
      · exact ⟨fun hahead => absurd hahead hnot, fun _ => UInt64.toNat_inj.mp (hnone.mpr hfits)⟩

/-- The ticks of delayed work move with `jiffies`. -/
theorem queueDelayedWorkOn_next :
    (queueDelayedWorkOn { clock with jiffies := clock.jiffies + 1 } work delay rc).2.1.ticks =
      (queueDelayedWorkOn clock work delay rc).2.1.ticks + clock.hz := by
  simp only [queueDelayedWorkOn]
  grind

/-- Without ticks every timer fires at once, whatever is asked for. -/
theorem timersFire_of_stopped (hhz : clock.hz = 0) :
    TimersFire clock expires delay pending work rc := by
  have hmod : ∀ e, (modTimer clock e pending rc).1.ticks = 0 := by
    intro e
    rw [modTimer, hhz, UInt64.zero_mul, UInt64.zero_div]
  have hwork : ∀ jiffies,
      (queueDelayedWorkOn { clock with jiffies } work delay rc).2.1.ticks = 0 := by
    intro jiffies
    simp only [queueDelayedWorkOn, hhz, UInt64.zero_mul]
  have hzero : clock.hz.toNat = 0 := by rw [hhz, UInt64.toNat_zero]
  refine { ahead := ?_, past := ?_, queued := ?_, modified := ?_, steady := ?_, noOverflow := ?_ }
  · intro _
    rw [hmod, hzero, Nat.zero_mul, Nat.zero_div, UInt64.toNat_zero]
  · intro _
    exact hmod expires
  · exact (hwork clock.jiffies).trans (hmod _).symm
  · exact (hwork clock.jiffies).trans (hmod _).symm
  · intro jiffies
    have hsteady := (hwork jiffies).trans (hwork clock.jiffies).symm
    exact ⟨hsteady, hsteady⟩
  · intro _
    rw [hzero, Nat.zero_mul, Nat.zero_mul]
    exact ⟨by decide, by decide⟩

/-- Timers and delayed work never fire as asked for while the timer runs; `mod_timer` alone does
on the expiries that fit. -/
theorem timers_fire_iff :
    (TimersFire clock expires delay pending work rc ↔ clock.hz = 0) ∧
      (ModTimerFires clock expires pending rc ↔ ExpiryFits clock expires) := by
  refine ⟨⟨fun hfires => ?_, timersFire_of_stopped clock expires delay pending work rc⟩,
    modTimerFires_iff clock expires pending rc⟩
  have hnext := (hfires.steady (clock.jiffies + 1)).1
  rw [queueDelayedWorkOn_next] at hnext
  grind

end Ticks

/-- Ten jiffies of a timer of 2 GHz are programmed as 1010 seconds. -/
theorem timers_not_fire :
    ¬ TimersFire ⟨2000000000, 1000⟩ 1010 10 false ⟨0⟩ 0 := by
  intro hfires
  exact absurd hfires.queued (by decide)

end IpAugenblick
