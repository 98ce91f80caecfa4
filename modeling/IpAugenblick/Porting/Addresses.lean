/-
# Announced addresses

`dpdk_dev_config` has one line for every line of the configuration file, so a port
may have its addresses on any lines, or none.  `get_all_addresses` looks for the
address of a device on the line with the number of the device.
-/

import IpAugenblick.Porting.Updates
import Mathlib.Tactic.SplitIfs

namespace IpAugenblick

open Lib

/-! ## Lists by key -/

section Keyed

variable {κ α : Type*} [DecidableEq κ] [DecidableEq α]

def valuesAt (k : κ) (xs : List (κ × α)) : List α :=
  xs.filterMap fun x => if x.1 = k then some x.2 else none

theorem count_valuesAt (k : κ) (a : α) (xs : List (κ × α)) :
    (valuesAt k xs).count a = xs.count (k, a) := by
  induction xs with
  | nil => rfl
  | cons x xs ih =>
      obtain ⟨k', a'⟩ := x
      unfold valuesAt at ih ⊢
      by_cases hk : k' = k
      · subst hk
        by_cases ha : a' = a
        · subst ha
          simp [ih]
        · simp [ha, ih]
      · simp [hk, ih]

/-- Lists have the same entries when every key has the same values in both. -/
theorem perm_iff_valuesAt {xs ys : List (κ × α)} :
    xs.Perm ys ↔ ∀ k, (valuesAt k xs).Perm (valuesAt k ys) := by
  constructor
  · intro h k
    exact h.filterMap _
  · intro h
    rw [List.perm_iff_count]
    rintro ⟨k, a⟩
    rw [← count_valuesAt, ← count_valuesAt]
    exact (h k).count_eq a

end Keyed

/-! ## The configuration and what is announced of it -/

/-- The lines of `dpdk_dev_config`. -/
def configLines (dpdkDevConfig : ℕ → DevConfig) : List DevConfig :=
  (List.range (rteMaxEthports * aliasesMaxNumber)).map dpdkDevConfig

section Announce

variable (inetAddr : List UInt8 → UInt32) (dpdkDevices : ℕ → Option DpdkDevice)
  (dpdkDevConfig : ℕ → DevConfig)

/-- The address of a line, as it is in memory and on the wire. -/
def DevConfig.address (line : DevConfig) : List UInt8 := memBytes32 (inetAddr line.ipAddrStr)

/-- The port of a line and its address, if the port is a device that is present. -/
def DevConfig.configured (line : DevConfig) : Option (ℕ × List UInt8) :=
  match line.portNumber with
  | .ofNat port =>
      if port < rteMaxEthports ∧ (dpdkDevices port).isSome then some (port, line.address inetAddr)
      else none
  | .negSucc _ => none

/-- The records of NEW_ADDRESSES are the configured addresses of the devices that are present. -/
def AnnouncesConfigured : Prop :=
  ∃ rs, decodeAddresses (UpdateMbuf.of .newAddresses
      (getAllAddresses inetAddr dpdkDevices dpdkDevConfig)).handed = some rs ∧
    (rs.map fun r => (r.index, r.address)).Perm
      ((configLines dpdkDevConfig).filterMap (·.configured inetAddr dpdkDevices))

def entriesFor (port : ℕ) : List DevConfig :=
  (configLines dpdkDevConfig).filter fun line => line.portNumber = port

/-- Port `port` has one entry, with the address of line `port`, or that line is unused and the
port has none. -/
def LineFits (port : ℕ) : Prop :=
  ((entriesFor dpdkDevConfig port).map fun line => line.address inetAddr) =
    if (dpdkDevConfig port).portNumber ≠ -1 then [(dpdkDevConfig port).address inetAddr] else []

/-- What a line contributes to a port. -/
theorem configured_at (line : DevConfig) (port : ℕ) :
    ((line.configured inetAddr dpdkDevices).bind fun x => if x.1 = port then some x.2 else none) =
      if port < rteMaxEthports ∧ (dpdkDevices port).isSome then
        if line.portNumber = port then some (line.address inetAddr) else none
      else none := by
  obtain ⟨portNumber, ipAddrStr, ipMaskStr⟩ := line
  cases portNumber with
  | ofNat n =>
      by_cases hn : n = port
      · subst hn
        by_cases hpresent : n < rteMaxEthports ∧ (dpdkDevices n).isSome
        · simp [DevConfig.configured, hpresent]
        · simp only [DevConfig.configured, hpresent, if_false, Option.bind_none]
      · by_cases hpresent : n < rteMaxEthports ∧ (dpdkDevices n).isSome
        · simp [DevConfig.configured, hpresent, hn]
        · simp only [DevConfig.configured, hpresent, if_false, Option.bind_none]
          simp [hn]
  | negSucc n => simp [DevConfig.configured]

/-- What is configured for a port. -/
theorem valuesAt_configured (port : ℕ) :
    valuesAt port ((configLines dpdkDevConfig).filterMap (·.configured inetAddr dpdkDevices)) =
      if port < rteMaxEthports ∧ (dpdkDevices port).isSome then
        (entriesFor dpdkDevConfig port).map fun line => line.address inetAddr
      else [] := by
  rw [valuesAt, List.filterMap_filterMap]
  simp only [configured_at]
  split
  · rw [entriesFor, ← List.filterMap_eq_map, List.filterMap_filter]
    simp
  · exact List.filterMap_eq_nil_iff.mpr fun _ _ => rfl

/-- One index of a range. -/
theorem filterMap_range_at {α : Type*} (n k : ℕ) (g : ℕ → Option α) :
    ((List.range n).filterMap fun i => if i = k then g i else none) =
      if k < n then (g k).toList else [] := by
  induction n with
  | zero => rfl
  | succ n ih =>
      rw [List.range_succ, List.filterMap_append, ih]
      rcases Nat.lt_trichotomy k n with hlt | rfl | hgt
      · have hne : n ≠ k := Nat.ne_of_gt hlt
        simp [hlt, hne, Nat.lt_succ_of_lt hlt]
      · cases hg : g k <;> simp [hg]
      · have hne : n ≠ k := Nat.ne_of_lt hgt
        simp [hne, Nat.not_lt_of_gt hgt, Nat.not_lt.mpr (Nat.succ_le_of_lt hgt)]

/-- What is announced for a port. -/
theorem valuesAt_announced (port : ℕ) :
    valuesAt port ((announcedIndices dpdkDevices dpdkDevConfig).map fun devIdx =>
        (devIdx, (dpdkDevConfig devIdx).address inetAddr)) =
      if port < rteMaxEthports ∧ (dpdkDevices port).isSome then
        if (dpdkDevConfig port).portNumber ≠ -1 then [(dpdkDevConfig port).address inetAddr] else []
      else [] := by
  have hat : ∀ devIdx,
      (if (dpdkDevices devIdx).isSome ∧ (dpdkDevConfig devIdx).portNumber ≠ -1 then
        if devIdx = port then some ((dpdkDevConfig devIdx).address inetAddr) else none
      else none) =
        if devIdx = port then
          if (dpdkDevices devIdx).isSome ∧ (dpdkDevConfig devIdx).portNumber ≠ -1 then
            some ((dpdkDevConfig devIdx).address inetAddr) else none
        else none := by
    intro devIdx
    split_ifs <;> rfl
  rw [valuesAt, List.filterMap_map, announcedIndices, List.filterMap_filter]
  simp only [Function.comp_def, decide_eq_true_eq, hat]
  rw [filterMap_range_at]
  by_cases hport : port < rteMaxEthports
  · by_cases hpresent : (dpdkDevices port).isSome
    · by_cases hused : (dpdkDevConfig port).portNumber = -1
      · simp [hused]
      · simp [hport, hpresent, hused]
    · simp [hpresent]
  · simp [hport]

theorem announcesConfigured_iff_perm :
    AnnouncesConfigured inetAddr dpdkDevices dpdkDevConfig ↔
      ((announcedIndices dpdkDevices dpdkDevConfig).map fun devIdx =>
          (devIdx, (dpdkDevConfig devIdx).address inetAddr)).Perm
        ((configLines dpdkDevConfig).filterMap (·.configured inetAddr dpdkDevices)) := by
  unfold AnnouncesConfigured
  rw [newAddresses_arrives]
  simp only [Option.some.injEq, exists_eq_left', List.map_map]
  rfl

/-- The announced addresses are the configured ones exactly when every device that is present
has one entry, with the address on the line of its number, or none while that line is unused. -/
theorem announces_configured_iff :
    AnnouncesConfigured inetAddr dpdkDevices dpdkDevConfig ↔
      ∀ port < rteMaxEthports, (dpdkDevices port).isSome →
        LineFits inetAddr dpdkDevConfig port := by
  rw [announcesConfigured_iff_perm, perm_iff_valuesAt]
  simp only [valuesAt_announced, valuesAt_configured]
  constructor
  · intro h port hport hpresent
    have hperm := h port
    rw [if_pos (And.intro hport hpresent), if_pos (And.intro hport hpresent)] at hperm
    rw [LineFits]
    by_cases hused : (dpdkDevConfig port).portNumber ≠ -1
    · rw [if_pos hused] at hperm ⊢
      exact List.perm_singleton.mp hperm.symm
    · rw [if_neg hused] at hperm ⊢
      exact List.perm_nil.mp hperm.symm
  · intro h port
    by_cases hpresent : port < rteMaxEthports ∧ (dpdkDevices port).isSome
    · rw [if_pos hpresent, if_pos hpresent, h port hpresent.1 hpresent.2]
    · rw [if_neg hpresent, if_neg hpresent]

end Announce

/-- The string 10.0.0.`last`. -/
def tenNet (last : UInt8) : List UInt8 := [49, 48, 46, 48, 46, 48, 46, 48 + last]

def classAMask : List UInt8 := [50, 53, 53, 46, 48, 46, 48, 46, 48]

/-- `inet_addr` of the strings of the configuration below. -/
def inetAddrOf (s : List UInt8) : UInt32 :=
  if s = tenNet 1 then 0x0100000A else if s = tenNet 2 then 0x0200000A else 0xFFFFFFFF

/-- A file with two entries: port 1, then port 0. -/
def swappedConfig : ℕ → DevConfig
  | 0 => ⟨1, tenNet 1, classAMask⟩
  | 1 => ⟨0, tenNet 2, classAMask⟩
  | _ => ⟨-1, [], []⟩

/-- DpdkDevice 0 is announced with the address of port 1. -/
theorem announces_not_configured :
    ¬ AnnouncesConfigured inetAddrOf oneDevice swappedConfig := by
  rw [announcesConfigured_iff_perm, perm_iff_valuesAt]
  intro h
  have hzero := h 0
  simp only [valuesAt_announced, valuesAt_configured] at hzero
  exact absurd hzero (by decide)

end IpAugenblick
