/-
# Reading the configuration

`get_dpdk_ip_stack_config` reads `dpdk_dev_config` with one `fscanf` after another
until the end of the file or of the table.  A call that converts nothing is repeated
with the same text in front of it.

What the file says is read off the text alone: the complete entries in front of the
first place where no entry is.  The loop agrees with it on files of complete entries
that fit the table, the strings and an `int`.
-/

import IpAugenblick.Porting.Updates
import Mathlib.Logic.Function.Basic

namespace IpAugenblick

/-! ## Items of the text -/

def isSpace (c : UInt8) : Bool := c = 32 || (9 ≤ c && c ≤ 13)

def isDigit (c : UInt8) : Bool := 48 ≤ c && c ≤ 57

def decimal (digits : List UInt8) : ℤ :=
  digits.foldl (fun (n : ℤ) d => 10 * n + ((d.toNat : ℤ) - 48)) 0

def splitSign (s : List UInt8) : ℤ × List UInt8 :=
  if s.head? = some 45 then (-1, s.tail) else if s.head? = some 43 then (1, s.tail) else (1, s)

/-- What `%d` finds. -/
inductive ScannedInt
  /-- Only white space up to the end of the file. -/
  | atEnd
  /-- No number, and whether the end of the file was seen. -/
  | failed (eof : Bool)
  | value (n : ℤ) (rest : List UInt8)
  deriving DecidableEq, Repr

/-- `%d`. -/
def scanInt (s : List UInt8) : ScannedInt :=
  let s := s.dropWhile isSpace
  let signed := splitSign s
  let digits := signed.2.takeWhile isDigit
  if s = [] then .atEnd
  else if digits = [] then .failed signed.2.isEmpty
  else .value (signed.1 * decimal digits) (signed.2.dropWhile isDigit)

/-- `%s`: the string, empty at the end of the file, and what follows it. -/
def scanString (s : List UInt8) : List UInt8 × List UInt8 :=
  let s := s.dropWhile isSpace
  (s.takeWhile (!isSpace ·), s.dropWhile (!isSpace ·))

/-! ## The source -/

/-- A file that is read: what is left of it, and the end-of-file indicator. -/
structure ConfigFile where
  rest : List UInt8
  eof : Bool
  deriving DecidableEq, Repr

def dpdkDevConfigSize : ℕ := rteMaxEthports * aliasesMaxNumber

/-- What a call of `fscanf` leaves. -/
inductive Scanned
  | returned (rc : ℤ) (entry : DevConfig) (file : ConfigFile)
  /-- A number beyond `int` or a string beyond its array. -/
  | undefined
  deriving DecidableEq, Repr

/-- The values of an `int`. -/
def FitsInt (n : ℤ) : Prop := -2147483648 ≤ n ∧ n < 2147483648

instance (n : ℤ) : Decidable (FitsInt n) := inferInstanceAs (Decidable (_ ∧ _))

/-- The size of `ip_addr_str` and `ip_mask_str`. -/
def addrStrSize : ℕ := 20

/-- The call of `fscanf` with "%d %s %s" for an entry of the table. -/
def fscanfEntry (entry : DevConfig) (s : List UInt8) : Scanned :=
  match scanInt s with
  | .atEnd => .returned (-1) entry ⟨[], true⟩
  | .failed eof => .returned 0 entry ⟨s, eof⟩
  | .value portNumber rest =>
      if ¬ FitsInt portNumber then .undefined
      else
        let entry := { entry with portNumber }
        let addr := scanString rest
        if addr.1 = [] then .returned 1 entry ⟨[], true⟩
        else if addrStrSize ≤ addr.1.length then .undefined
        else
          let entry := { entry with ipAddrStr := addr.1 }
          let mask := scanString addr.2
          if mask.1 = [] then .returned 2 entry ⟨[], true⟩
          else if addrStrSize ≤ mask.1.length then .undefined
          else .returned 3 { entry with ipMaskStr := mask.1 } ⟨mask.2, mask.2.isEmpty⟩

/-- The loop of `get_dpdk_ip_stack_config`. -/
structure ConfigLoop where
  file : ConfigFile
  i : ℕ
  dpdkDevConfig : ℕ → DevConfig

/-- Where `get_dpdk_ip_stack_config` stands. -/
inductive ConfigState
  | looping (l : ConfigLoop)
  | ended (rc : ℤ) (dpdkDevConfig : ℕ → DevConfig)
  | undefined

def ConfigLoop.next (l : ConfigLoop) : ConfigState :=
  if l.file.eof then .ended 0 l.dpdkDevConfig
  else
    match fscanfEntry (l.dpdkDevConfig l.i) l.file.rest with
    | .undefined => .undefined
    | .returned rc entry file =>
        let dpdkDevConfig := Function.update l.dpdkDevConfig l.i entry
        if rc = 0 then .looping { l with file, dpdkDevConfig }
        else if l.i + 1 = dpdkDevConfigSize then .ended 0 dpdkDevConfig
        else .looping { file, i := l.i + 1, dpdkDevConfig }

def ConfigState.run : ℕ → ConfigState → ConfigState
  | fuel + 1, .looping l => l.next.run fuel
  | _, s => s

def unusedConfig (dpdkDevConfig : ℕ → DevConfig) (i : ℕ) : DevConfig :=
  if i < dpdkDevConfigSize then { dpdkDevConfig i with portNumber := -1 }
  else dpdkDevConfig i

/-- `get_dpdk_ip_stack_config`, given what `fopen` finds. -/
def getDpdkIpStackConfig (file : Option (List UInt8)) (dpdkDevConfig : ℕ → DevConfig) :
    ConfigState :=
  match file with
  | none => .ended (-1) dpdkDevConfig
  | some content => .looping ⟨⟨content, false⟩, 0, unusedConfig dpdkDevConfig⟩

def getDpdkConfigEntry (dpdkDevConfig : ℕ → DevConfig) (portnum : ℤ) : Option DevConfig :=
  ((List.range dpdkDevConfigSize).map dpdkDevConfig).find? fun line =>
    line.portNumber = portnum

/-! ## What the file says -/

/-- The complete entry in front, and what follows it. -/
def completeEntry (s : List UInt8) : Option (DevConfig × List UInt8) :=
  match scanInt s with
  | .value portNumber rest =>
      let addr := scanString rest
      let mask := scanString addr.2
      if addr.1 = [] ∨ mask.1 = [] then none
      else some (⟨portNumber, addr.1, mask.1⟩, mask.2)
  | _ => none

theorem length_dropWhile_le (p : UInt8 → Bool) (s : List UInt8) :
    (s.dropWhile p).length ≤ s.length :=
  (List.dropWhile_suffix p).length_le

/-- A string takes something of the text. -/
theorem scanString_shorter {s : List UInt8} (h : (scanString s).1 ≠ []) :
    (scanString s).2.length < s.length := by
  have hspace := length_dropWhile_le isSpace s
  have hsplit := congrArg List.length
    (List.takeWhile_append_dropWhile (p := (!isSpace ·)) (l := s.dropWhile isSpace))
  have hpos := List.length_pos_of_ne_nil h
  rw [List.length_append] at hsplit
  simp only [scanString] at hpos ⊢
  omega

theorem splitSign_shorter (s : List UInt8) : (splitSign s).2.length ≤ s.length := by
  unfold splitSign
  split_ifs <;> simp

theorem scanInt_shorter {s rest : List UInt8} {n : ℤ} (h : scanInt s = .value n rest) :
    rest.length ≤ s.length := by
  unfold scanInt at h
  simp only at h
  split_ifs at h
  injection h with hn hrest
  rw [← hrest]
  calc ((splitSign (s.dropWhile isSpace)).2.dropWhile isDigit).length
      ≤ (splitSign (s.dropWhile isSpace)).2.length := length_dropWhile_le _ _
    _ ≤ (s.dropWhile isSpace).length := splitSign_shorter _
    _ ≤ s.length := length_dropWhile_le _ _

/-- What a complete entry is made of. -/
theorem completeEntry_cases {s rest : List UInt8} {line : DevConfig}
    (h : completeEntry s = some (line, rest)) :
    ∃ rest₁, scanInt s = .value line.portNumber rest₁ ∧
      line.ipAddrStr ≠ [] ∧ (scanString rest₁).1 = line.ipAddrStr ∧
      line.ipMaskStr ≠ [] ∧ scanString (scanString rest₁).2 = (line.ipMaskStr, rest) := by
  unfold completeEntry at h
  cases hint : scanInt s with
  | atEnd => simp [hint] at h
  | failed eof => simp [hint] at h
  | value n rest₁ =>
      simp only [hint] at h
      split at h
      next hempty => cases h
      next hfull =>
        rw [Option.some.injEq, Prod.mk.injEq] at h
        obtain ⟨rfl, rfl⟩ := h
        rw [not_or] at hfull
        exact ⟨rest₁, rfl, hfull.1, rfl, hfull.2, rfl⟩

theorem completeEntry_shorter {s rest : List UInt8} {line : DevConfig}
    (h : completeEntry s = some (line, rest)) : rest.length < s.length := by
  obtain ⟨rest₁, hint, haddr, hscan, hmask, hlast⟩ := completeEntry_cases h
  have hfirst := scanInt_shorter hint
  have hsecond := scanString_shorter (hscan ▸ haddr)
  have hthird := @scanString_shorter (scanString rest₁).2 (by rwa [hlast])
  simp only [hlast] at hthird
  omega

/-- The complete entries in front of the first place where there is none, and what is there. -/
def entriesOf (s : List UInt8) : List DevConfig × List UInt8 :=
  match _hentry : completeEntry s with
  | none => ([], s)
  | some (line, rest) =>
      let more := entriesOf rest
      (line :: more.1, more.2)
termination_by s.length
decreasing_by exact completeEntry_shorter _hentry

theorem entriesOf_none {s : List UInt8} (h : completeEntry s = none) : entriesOf s = ([], s) := by
  rw [entriesOf]
  split
  next => rfl
  next hentry => simp [h] at hentry

theorem entriesOf_some {s rest : List UInt8} {line : DevConfig}
    (h : completeEntry s = some (line, rest)) :
    entriesOf s = (line :: (entriesOf rest).1, (entriesOf rest).2) := by
  rw [entriesOf]
  split
  next hentry => simp [h] at hentry
  next line' rest' hentry =>
    rw [h, Option.some.injEq, Prod.mk.injEq] at hentry
    obtain ⟨rfl, rfl⟩ := hentry
    rfl

/-- An entry that `dpdk_dev_config` has room for. -/
structure DevConfig.Storable (line : DevConfig) : Prop where
  number : FitsInt line.portNumber
  addr : line.ipAddrStr.length < addrStrSize
  mask : line.ipMaskStr.length < addrStrSize

/-- The table has the lines from entry `i` on, and nothing behind them. -/
structure TableHolds (i : ℕ) (lines : List DevConfig) (dpdkDevConfig : ℕ → DevConfig) : Prop where
  room : i + lines.length ≤ dpdkDevConfigSize
  stored : ∀ k line, lines[k]? = some line → dpdkDevConfig (i + k) = line
  unused : ∀ k, i + lines.length ≤ k → k < dpdkDevConfigSize → (dpdkDevConfig k).portNumber = -1

/-! ## Runs -/

/-- The function returns, with such a table. -/
def ConfigState.EndsWith (s : ConfigState) (P : (ℕ → DevConfig) → Prop) : Prop :=
  ∃ fuel final, s.run fuel = .ended 0 final ∧ P final

section Runs

variable {P Q : (ℕ → DevConfig) → Prop} {l : ConfigLoop} {dpdkDevConfig : ℕ → DevConfig}

theorem ConfigState.run_ended (rc : ℤ) (fuel : ℕ) :
    (ConfigState.ended rc dpdkDevConfig).run fuel = .ended rc dpdkDevConfig := by
  cases fuel <;> rfl

theorem ConfigState.run_undefined (fuel : ℕ) :
    ConfigState.undefined.run fuel = .undefined := by
  cases fuel <;> rfl

theorem endsWith_looping : (ConfigState.looping l).EndsWith P ↔ l.next.EndsWith P := by
  constructor
  · rintro ⟨fuel, final, hrun, hP⟩
    cases fuel with
    | zero => cases hrun
    | succ fuel => exact ⟨fuel, final, hrun, hP⟩
  · rintro ⟨fuel, final, hrun, hP⟩
    exact ⟨fuel + 1, final, hrun, hP⟩

theorem endsWith_ended : (ConfigState.ended 0 dpdkDevConfig).EndsWith P ↔ P dpdkDevConfig := by
  constructor
  · rintro ⟨fuel, final, hrun, hP⟩
    rw [ConfigState.run_ended] at hrun
    injection hrun with _ hfinal
    rwa [hfinal]
  · intro hP
    exact ⟨0, dpdkDevConfig, rfl, hP⟩

theorem not_endsWith_undefined : ¬ ConfigState.undefined.EndsWith P := by
  rintro ⟨fuel, final, hrun, hP⟩
  rw [ConfigState.run_undefined] at hrun
  cases hrun

/-- A round that changes nothing is repeated forever. -/
theorem not_endsWith_stuck (h : l.next = .looping l) : ¬ (ConfigState.looping l).EndsWith P := by
  rintro ⟨fuel, final, hrun, hP⟩
  induction fuel with
  | zero => cases hrun
  | succ fuel ih =>
      rw [ConfigState.run, h] at hrun
      exact ih hrun

theorem endsWith_congr {s : ConfigState} (h : ∀ final, P final ↔ Q final) :
    s.EndsWith P ↔ s.EndsWith Q := by
  unfold ConfigState.EndsWith
  simp only [h]

end Runs

/-! ## A call of `fscanf` -/

section Calls

variable {s rest : List UInt8} {line : DevConfig}

/-- A complete entry is stored, if there is room for its items. -/
theorem fscanfEntry_complete (h : completeEntry s = some (line, rest)) (entry : DevConfig)
    (hline : line.Storable) :
    fscanfEntry entry s = .returned 3 line ⟨rest, rest.isEmpty⟩ := by
  obtain ⟨rest₁, hint, haddr, hscan, hmask, hlast⟩ := completeEntry_cases h
  simp only [fscanfEntry, hint, hscan, hlast, haddr, hmask, not_true_eq_false, hline.number,
    Nat.not_le_of_lt hline.addr, Nat.not_le_of_lt hline.mask, if_false]

theorem fscanfEntry_unstorable (h : completeEntry s = some (line, rest)) (entry : DevConfig)
    (hline : ¬ line.Storable) : fscanfEntry entry s = .undefined := by
  obtain ⟨rest₁, hint, haddr, hscan, hmask, hlast⟩ := completeEntry_cases h
  simp only [fscanfEntry, hint, hscan, hlast, haddr, hmask, if_false]
  by_cases hnumber : FitsInt line.portNumber
  · by_cases haddrFits : line.ipAddrStr.length < addrStrSize
    · have hmaskLong : addrStrSize ≤ line.ipMaskStr.length :=
        Nat.le_of_not_lt fun hfits => hline ⟨hnumber, haddrFits, hfits⟩
      simp [hnumber, hmaskLong]
    · simp [hnumber, Nat.le_of_not_lt haddrFits]
  · simp [hnumber]

/-- An entry that the end of the file cuts short: its number is stored, if there is room for it
and for the address. -/
theorem fscanfEntry_cut {portNumber : ℤ} {rest : List UInt8} (h : completeEntry s = none)
    (hint : scanInt s = .value portNumber rest) (entry : DevConfig) :
    if FitsInt portNumber ∧ (scanString rest).1.length < addrStrSize then
      ∃ rc entry', rc ≠ 0 ∧ entry'.portNumber = portNumber ∧
        fscanfEntry entry s = .returned rc entry' ⟨[], true⟩
    else fscanfEntry entry s = .undefined := by
  by_cases hnumber : FitsInt portNumber
  · by_cases haddr : (scanString rest).1 = []
    · have hroom : (scanString rest).1.length < addrStrSize := by
        rw [haddr]
        decide
      rw [if_pos ⟨hnumber, hroom⟩]
      refine ⟨1, { entry with portNumber }, by decide, rfl, ?_⟩
      simp [fscanfEntry, hint, hnumber, haddr]
    · by_cases hroom : (scanString rest).1.length < addrStrSize
      · have hmask : (scanString (scanString rest).2).1 = [] := by
          by_contra hne
          simp [completeEntry, hint, haddr, hne] at h
        rw [if_pos ⟨hnumber, hroom⟩]
        refine ⟨2, { entry with portNumber, ipAddrStr := (scanString rest).1 }, by decide, rfl, ?_⟩
        simp [fscanfEntry, hint, hnumber, haddr, hmask, Nat.not_le_of_lt hroom]
      · rw [if_neg fun hfits => hroom hfits.2]
        simp [fscanfEntry, hint, hnumber, haddr, Nat.le_of_not_lt hroom]
  · rw [if_neg fun hfits => hnumber hfits.1]
    simp [fscanfEntry, hint, hnumber]

end Calls

/-- Where no entry is, reading does no harm: there is only white space, a sign that nothing
follows, or an entry that the end of the file cuts short, for port -1. -/
def HarmlessTail (s : List UInt8) : Prop :=
  match scanInt s with
  | .atEnd => True
  | .failed eof => eof = true
  | .value portNumber rest => portNumber = -1 ∧ (scanString rest).1.length < addrStrSize

/-- A file that is read as it is meant, into the table from entry `i` on. -/
structure ConfigFits (i : ℕ) (s : List UInt8) : Prop where
  room : i + (entriesOf s).1.length ≤ dpdkDevConfigSize
  storable : ∀ line ∈ (entriesOf s).1, line.Storable
  tail : i + (entriesOf s).1.length < dpdkDevConfigSize → HarmlessTail (entriesOf s).2

section Loop

variable {i : ℕ} {s rest : List UInt8} {line entry : DevConfig} {lines : List DevConfig}
  {dpdkDevConfig final : ℕ → DevConfig}

/-- What the loop is to end with from entry `i` on. -/
def ReadFrom (i : ℕ) (lines : List DevConfig) (dpdkDevConfig final : ℕ → DevConfig) : Prop :=
  (∀ j < i, final j = dpdkDevConfig j) ∧ TableHolds i lines final

/-- The first line stands in entry `i`, the others behind it. -/
theorem readFrom_cons :
    ReadFrom i (line :: lines) dpdkDevConfig final ↔
      ReadFrom (i + 1) lines (Function.update dpdkDevConfig i line) final := by
  have hlen : i + (line :: lines).length = i + 1 + lines.length := by
    rw [List.length_cons, Nat.add_comm lines.length, Nat.add_assoc]
  constructor
  · rintro ⟨hbefore, hroom, hstored, hunused⟩
    rw [hlen] at hroom hunused
    refine ⟨?_, hroom, ?_, hunused⟩
    · intro j hj
      rcases Nat.lt_succ_iff_lt_or_eq.mp hj with hlt | rfl
      · rw [Function.update_of_ne (Nat.ne_of_lt hlt)]
        exact hbefore j hlt
      · rw [Function.update_self]
        exact hstored 0 line rfl
    · intro k other hother
      rw [Nat.add_assoc, Nat.add_comm 1]
      exact hstored (k + 1) other hother
  · rintro ⟨hbefore, hroom, hstored, hunused⟩
    rw [← hlen] at hroom hunused
    refine ⟨?_, hroom, ?_, hunused⟩
    · intro j hj
      rw [hbefore j (Nat.lt_succ_of_lt hj), Function.update_of_ne (Nat.ne_of_lt hj)]
    · intro k other hother
      cases k with
      | zero =>
          rw [List.getElem?_cons_zero, Option.some.injEq] at hother
          rw [Nat.add_zero, hbefore i (Nat.lt_succ_self i), Function.update_self, hother]
      | succ k =>
          rw [Nat.add_comm k, ← Nat.add_assoc]
          exact hstored k other hother

/-- Nothing more to read: what is stored in entry `i` is unused. -/
theorem readFrom_nil (hi : i < dpdkDevConfigSize)
    (hunused : ∀ k, i ≤ k → k < dpdkDevConfigSize → (dpdkDevConfig k).portNumber = -1) :
    ReadFrom i [] dpdkDevConfig (Function.update dpdkDevConfig i entry) ↔
      entry.portNumber = -1 := by
  constructor
  · rintro ⟨-, -, -, hrest⟩
    have hentry := hrest i (Nat.le_refl i) hi
    rwa [Function.update_self] at hentry
  · intro hentry
    refine ⟨fun j hj => Function.update_of_ne (Nat.ne_of_lt hj) _ _, Nat.le_of_lt hi, ?_, ?_⟩
    · intro k other hother
      cases hother
    · intro k hik hk
      by_cases hki : k = i
      · rw [hki, Function.update_self, hentry]
      · rw [Function.update_of_ne hki]
        exact hunused k hik hk

theorem readFrom_nil_self (hi : i < dpdkDevConfigSize)
    (hunused : ∀ k, i ≤ k → k < dpdkDevConfigSize → (dpdkDevConfig k).portNumber = -1) :
    ReadFrom i [] dpdkDevConfig dpdkDevConfig := by
  have hread := (@readFrom_nil i (dpdkDevConfig i) dpdkDevConfig hi hunused).mpr
    (hunused i (Nat.le_refl i) hi)
  rwa [Function.update_eq_self] at hread

theorem configFits_cons (h : completeEntry s = some (line, rest)) :
    ConfigFits i s ↔ line.Storable ∧ ConfigFits (i + 1) rest := by
  have hlen : i + (entriesOf s).1.length = i + 1 + (entriesOf rest).1.length := by
    rw [entriesOf_some h, List.length_cons, Nat.add_comm _ 1, Nat.add_assoc]
  constructor
  · rintro ⟨hroom, hstorable, htail⟩
    rw [hlen] at hroom htail
    rw [entriesOf_some h] at hstorable htail
    exact ⟨hstorable line List.mem_cons_self, hroom,
      fun other hother => hstorable other (List.mem_cons_of_mem _ hother), htail⟩
  · rintro ⟨hline, hroom, hstorable, htail⟩
    rw [← hlen] at hroom htail
    refine ⟨hroom, ?_, ?_⟩
    · intro other hother
      rw [entriesOf_some h] at hother
      rcases List.mem_cons.mp hother with rfl | hmem
      · exact hline
      · exact hstorable other hmem
    · rw [entriesOf_some h] at htail ⊢
      exact htail

theorem configFits_nil (h : completeEntry s = none) (hi : i < dpdkDevConfigSize) :
    ConfigFits i s ↔ HarmlessTail s := by
  constructor
  · intro hfits
    have htail := hfits.tail
    rw [entriesOf_none h] at htail
    exact htail hi
  · intro htail
    refine ⟨?_, ?_, ?_⟩
    · rw [entriesOf_none h]
      exact Nat.le_of_lt hi
    · intro line hline
      rw [entriesOf_none h] at hline
      cases hline
    · intro _
      rwa [entriesOf_none h]

/-- A full table ends the loop: no entry may be left. -/
theorem readFrom_full :
    ReadFrom dpdkDevConfigSize lines dpdkDevConfig dpdkDevConfig ↔ lines = [] := by
  constructor
  · rintro ⟨-, hroom, -, -⟩
    exact List.eq_nil_of_length_eq_zero (by omega)
  · rintro rfl
    refine ⟨fun _ _ => rfl, Nat.le_refl _, ?_, ?_⟩
    · intro k other hother
      cases hother
    · intro k hfull hk
      exact absurd hk (Nat.not_lt_of_le hfull)

theorem configFits_full : ConfigFits dpdkDevConfigSize s ↔ (entriesOf s).1 = [] := by
  constructor
  · intro hfits
    have hroom := hfits.room
    exact List.eq_nil_of_length_eq_zero (by omega)
  · intro hnone
    refine ⟨?_, ?_, ?_⟩
    · rw [hnone]
      exact Nat.le_refl _
    · intro other hother
      rw [hnone] at hother
      cases hother
    · intro hroom
      rw [hnone] at hroom
      exact absurd hroom (Nat.lt_irrefl _)

/-- At the end of the file the loop ends, whether or not the table is full. -/
theorem endsWith_atEnd {P : (ℕ → DevConfig) → Prop} :
    (if i + 1 = dpdkDevConfigSize then ConfigState.ended 0 dpdkDevConfig
      else .looping ⟨⟨[], true⟩, i + 1, dpdkDevConfig⟩).EndsWith P ↔ P dpdkDevConfig := by
  split
  · exact endsWith_ended
  · rw [endsWith_looping]
    exact endsWith_ended

/-- Where no number is, the same text is read again. -/
theorem next_failed {eof : Bool} (hint : scanInt s = .failed eof) :
    ConfigLoop.next ⟨⟨s, false⟩, i, dpdkDevConfig⟩ = .looping ⟨⟨s, eof⟩, i, dpdkDevConfig⟩ := by
  have hcall : fscanfEntry (dpdkDevConfig i) s = .returned 0 (dpdkDevConfig i) ⟨s, eof⟩ := by
    rw [fscanfEntry, hint]
  rw [ConfigLoop.next]
  simp only [hcall, Bool.false_eq_true, if_false, Function.update_eq_self, if_true]

/-- Where no entry is, the loop ends as it is meant to only if reading does no harm. -/
theorem endsWith_none (h : completeEntry s = none) (hi : i < dpdkDevConfigSize)
    (hunused : ∀ k, i ≤ k → k < dpdkDevConfigSize → (dpdkDevConfig k).portNumber = -1) :
    (ConfigState.looping ⟨⟨s, false⟩, i, dpdkDevConfig⟩).EndsWith (ReadFrom i [] dpdkDevConfig) ↔
      HarmlessTail s := by
  have hkept := readFrom_nil_self hi hunused
  unfold HarmlessTail
  cases hint : scanInt s with
  | atEnd =>
      have hcall : fscanfEntry (dpdkDevConfig i) s =
          .returned (-1) (dpdkDevConfig i) ⟨[], true⟩ := by
        rw [fscanfEntry, hint]
      rw [endsWith_looping, ConfigLoop.next]
      simp only [hcall, Bool.false_eq_true, if_false, Function.update_eq_self,
        show ¬ (-1 : ℤ) = 0 by decide]
      rw [endsWith_atEnd]
      exact iff_of_true hkept trivial
  | failed eof =>
      cases eof with
      | false => exact iff_of_false (not_endsWith_stuck (next_failed hint)) Bool.false_ne_true
      | true =>
          rw [endsWith_looping, next_failed hint, endsWith_looping]
          exact iff_of_true (endsWith_ended.mpr hkept) rfl
  | value portNumber rest =>
      have hcut := fscanfEntry_cut h hint (dpdkDevConfig i)
      rw [endsWith_looping, ConfigLoop.next]
      split at hcut
      next hfits =>
          obtain ⟨rc, entry, hrc, hnumber, hcall⟩ := hcut
          simp only [hcall, Bool.false_eq_true, if_false, hrc]
          rw [endsWith_atEnd, readFrom_nil hi hunused, hnumber]
          exact (and_iff_left hfits.2).symm
      next hnot =>
          simp only [hcut, Bool.false_eq_true, if_false]
          refine iff_of_false not_endsWith_undefined ?_
          rintro ⟨rfl, hroom⟩
          exact hnot ⟨by decide, hroom⟩

/-- From any entry on, the loop ends as it is meant to exactly on files that fit. -/
theorem endsWith_readFrom_iff (eof : Bool) (heof : eof = true → s = [])
    (hi : i < dpdkDevConfigSize)
    (hunused : ∀ k, i ≤ k → k < dpdkDevConfigSize → (dpdkDevConfig k).portNumber = -1) :
    (ConfigState.looping ⟨⟨s, eof⟩, i, dpdkDevConfig⟩).EndsWith
        (ReadFrom i (entriesOf s).1 dpdkDevConfig) ↔
      ConfigFits i s := by
  -- by the entries of the text: each one moves the loop to the next line of the table
  induction s using entriesOf.induct generalizing i eof dpdkDevConfig with
  | case1 s hentry =>
      rw [configFits_nil hentry hi, entriesOf_none hentry]
      cases eof with
      | false => exact endsWith_none hentry hi hunused
      | true =>
          rw [heof rfl, endsWith_looping]
          exact iff_of_true (endsWith_ended.mpr (readFrom_nil_self hi hunused)) trivial
  | case2 s line rest hentry ih =>
      have heofFalse : eof = false := by
        cases eof with
        | false => rfl
        | true =>
            rw [heof rfl] at hentry
            cases hentry
      rw [configFits_cons hentry, entriesOf_some hentry, endsWith_looping, ConfigLoop.next,
        heofFalse]
      simp only [Bool.false_eq_true, if_false]
      by_cases hline : line.Storable
      · simp only [fscanfEntry_complete hentry _ hline, show ¬ (3 : ℤ) = 0 by decide, if_false,
          hline, true_and]
        rw [endsWith_congr fun _ => readFrom_cons]
        have hbehind : ∀ k, i + 1 ≤ k → k < dpdkDevConfigSize →
            (Function.update dpdkDevConfig i line k).portNumber = -1 := by
          intro k hik hk
          rw [Function.update_of_ne (Nat.ne_of_gt hik)]
          exact hunused k (Nat.le_of_succ_le hik) hk
        split
        next hfull =>
          rw [endsWith_ended, hfull, readFrom_full, configFits_full]
        next hroom =>
          exact ih rest.isEmpty List.isEmpty_iff.mp (Nat.lt_of_le_of_ne hi hroom) hbehind
      · rw [fscanfEntry_unstorable hentry _ hline]
        exact iff_of_false not_endsWith_undefined fun hfits => hline hfits.1

end Loop

/-! ## The whole file -/

/-- `get_dpdk_ip_stack_config` returns, with the complete entries in front of the first malformed
one in order and the others unused. -/
def ConfigRead (content : List UInt8) (dpdkDevConfig : ℕ → DevConfig) : Prop :=
  (getDpdkIpStackConfig (some content) dpdkDevConfig).EndsWith (TableHolds 0 (entriesOf content).1)

/-- The entry that `get_dpdk_config_entry` finds after that is the first of the port. -/
theorem getDpdkConfigEntry_tableHolds {lines : List DevConfig} {dpdkDevConfig : ℕ → DevConfig}
    (h : TableHolds 0 lines dpdkDevConfig) {portnum : ℤ} (hport : portnum ≠ -1) :
    getDpdkConfigEntry dpdkDevConfig portnum =
      lines.find? fun line => line.portNumber = portnum := by
  have hroom : lines.length ≤ dpdkDevConfigSize := by
    have hle := h.room
    rwa [Nat.zero_add] at hle
  obtain ⟨spare, hspare⟩ := Nat.exists_eq_add_of_le hroom
  have hlines : (List.range lines.length).map dpdkDevConfig = lines := by
    apply List.ext_getElem (by simp)
    intro k hk hlt
    have hstored := h.stored k lines[k] (List.getElem?_eq_getElem hlt)
    rw [Nat.zero_add] at hstored
    rw [List.getElem_map, List.getElem_range, hstored]
  have hunused : (((List.range spare).map (lines.length + ·)).map dpdkDevConfig).find?
      (fun line => line.portNumber = portnum) = none := by
    rw [List.find?_eq_none]
    intro line hline
    rw [List.map_map] at hline
    obtain ⟨k, hk, rfl⟩ := List.mem_map.mp hline
    have hlt := List.mem_range.mp hk
    have hentry := h.unused (lines.length + k) (by omega) (by omega)
    rw [Function.comp_apply, hentry, decide_eq_true_eq]
    exact hport.symm
  rw [getDpdkConfigEntry, hspare, List.range_add, List.map_append, hlines, List.find?_append,
    hunused, Option.or_none]

theorem unusedConfig_portNumber (dpdkDevConfig : ℕ → DevConfig) {i : ℕ}
    (hi : i < dpdkDevConfigSize) : (unusedConfig dpdkDevConfig i).portNumber = -1 := by
  rw [unusedConfig, if_pos hi]

/-- A file is read as it is meant exactly when its complete entries fit the table and their items
the arrays, and reading does no harm behind them. -/
theorem config_read_iff (content : List UInt8) (dpdkDevConfig : ℕ → DevConfig) :
    ConfigRead content dpdkDevConfig ↔ ConfigFits 0 content := by
  rw [← endsWith_readFrom_iff false (fun h => absurd h Bool.false_ne_true) (by decide)
    fun i _ hi => unusedConfig_portNumber dpdkDevConfig hi]
  apply endsWith_congr
  intro final
  exact (and_iff_right fun j hj => absurd hj (Nat.not_lt_zero j)).symm

/-- A line that starts with a number sign is read for ever. -/
theorem comment_not_read : ¬ ConfigRead [35, 10] fun _ => ⟨0, [], []⟩ :=
  not_endsWith_stuck (next_failed (by decide))

end IpAugenblick
