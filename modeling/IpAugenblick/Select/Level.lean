/-
# Level mode

On a selector in level mode a socket that was reported ready is reported again by
every select until a receive or a send on it fails.  What select has dequeued for a
socket is in its mask, and the list has the socket; a failed receive or send takes the
bit out of the mask, and the socket out of the list when no bit is left.

`ipaugenblick_fdclear` takes the socket out of the list whatever is in the mask, and
only `ipaugenblick_fdset` or a new entry puts it back.  As long as no other fdset is
interested in the socket, nobody notices.
-/

import IpAugenblick.Select.Cache
import IpAugenblick.Select.Fdsets

namespace IpAugenblick

open Lib

/-! ## Bits -/

def ReadyBit.index : ReadyBit → ℕ
  | .readable => 0
  | .writable => 1
  | .closed => 2

theorem ReadyBit.mask_eq (b : ReadyBit) : b.mask = BitVec.twoPow 32 b.index := by
  cases b <;> decide

theorem hasBit_eq (m : BitVec 32) (b : ReadyBit) : hasBit m b = m.getLsbD b.index := by
  unfold hasBit
  rw [b.mask_eq, BitVec.and_twoPow]
  cases m.getLsbD b.index with
  | false => simp
  | true => cases b <;> decide

theorem hasBit_or (m n : BitVec 32) (b : ReadyBit) :
    hasBit (m ||| n) b = (hasBit m b || hasBit n b) := by
  simp only [hasBit_eq, BitVec.getLsbD_or]

theorem hasBit_clear (m : BitVec 32) (b d : ReadyBit) :
    hasBit (m &&& ~~~d.mask) b = (hasBit m b && decide (b ≠ d)) := by
  simp only [hasBit_eq, BitVec.getLsbD_and, BitVec.getLsbD_not]
  cases b <;> cases d <;> simp [ReadyBit.index, ReadyBit.mask]

theorem ne_zero_of_hasBit {m : BitVec 32} {b : ReadyBit} (h : hasBit m b = true) : m ≠ 0 := by
  rintro rfl
  simp [hasBit] at h

/-! ## One select -/

/-- The fdset that a bit is reported to. -/
def SelectCall.fdsetOf (call : SelectCall) : ReadyBit → Option ℕ
  | .readable => call.readfdset
  | .writable => call.writefdset
  | .closed => call.excfdset

theorem SelectCall.fdsetOf_mem (call : SelectCall) (b : ReadyBit) :
    call.fdsetOf b ∈ call.fdsets := by
  cases b <;> simp [SelectCall.fdsetOf, SelectCall.fdsets]

/-- The fdset at `a` is interested in the socket `i`, and has it when `reported`. -/
def Wants (c : SelectClient) (a i : ℕ) (reported : Bool) : Prop :=
  ∃ f, c.fdsets a = some f ∧ f.interestedFlags i = true ∧
    (reported = true → f.returnedFlags i = true)

variable {c c' : SelectClient} {call : SelectCall} {a i : ℕ} {b : ReadyBit} {reported : Bool}

theorem Wants.modifyFdset {change : Fdset → Fdset} {after : Bool} (h : Wants c a i reported)
    (address : Option ℕ)
    (hinterest : ∀ f, (change f).interestedFlags = f.interestedFlags)
    (hother : address ≠ some a → after = reported)
    (hflag : ∀ f : Fdset, f.interestedFlags i = true →
      (reported = true → f.returnedFlags i = true) → after = true →
      (change f).returnedFlags i = true) :
    Wants (c.modifyFdset address change) a i after := by
  obtain ⟨f, hf, hi, hreported⟩ := h
  cases address with
  | none =>
      obtain rfl := hother (by simp)
      exact ⟨f, hf, hi, hreported⟩
  | some k =>
      by_cases hak : a = k
      · subst hak
        refine ⟨change f, by simp [SelectClient.modifyFdset, hf], ?_, hflag f hi hreported⟩
        rw [hinterest, hi]
      · obtain rfl := hother fun heq => hak (Option.some.inj heq).symm
        refine ⟨f, ?_, hi, hreported⟩
        simp [SelectClient.modifyFdset, Function.update_of_ne hak, hf]

theorem Fdset.updateFdset_interest (f : Fdset) (idx : ℕ) :
    (f.updateFdset idx).interestedFlags = f.interestedFlags := by
  unfold Fdset.updateFdset
  split_ifs <;> rfl

/-- A result stays one. -/
theorem Fdset.updateFdset_keeps (f : Fdset) (idx : ℕ) (h : f.returnedFlags i = true) :
    (f.updateFdset idx).returnedFlags i = true := by
  unfold Fdset.updateFdset
  split_ifs
  · exact h
  · by_cases hi : i = idx
    · simp [hi]
    · simp [Function.update_of_ne hi, h]
  · exact h

/-- A socket of interest becomes a result. -/
theorem Fdset.updateFdset_self (f : Fdset) (h : f.interestedFlags i = true) :
    (f.updateFdset i).returnedFlags i = true := by
  unfold Fdset.updateFdset
  rw [if_pos h]
  split_ifs with hflag
  · exact hflag
  · simp

theorem Wants.report (h : Wants c a i reported) (address : Option ℕ) (mask : BitVec 32)
    (bit : ReadyBit) (idx : ℕ) : Wants (c.report address mask bit idx) a i reported := by
  unfold SelectClient.report
  split
  · exact h.modifyFdset address (fun f => f.updateFdset_interest idx) (fun _ => rfl)
      fun f _ hflag hreported => f.updateFdset_keeps idx (hflag hreported)
  · exact h

theorem Wants.report_self (h : Wants c a i reported) {mask : BitVec 32} {bit : ReadyBit}
    (hbit : hasBit mask bit = true) : Wants (c.report (some a) mask bit i) a i true := by
  unfold SelectClient.report
  rw [if_pos hbit]
  exact h.modifyFdset (some a) (fun f => f.updateFdset_interest i) (fun hne => absurd rfl hne)
    fun f hi _ _ => f.updateFdset_self hi

theorem Wants.selectCached (h : Wants c a i reported) (idx : ℕ) :
    Wants (c.selectCached call idx) a i reported :=
  ((h.report _ _ _ _).report _ _ _ _).report _ _ _ _

theorem Wants.selectCached_self (h : Wants c a i reported)
    (hbit : hasBit (c.descr i).localMask b = true) (ha : call.fdsetOf b = some a) :
    Wants (c.selectCached call i) a i true := by
  unfold SelectClient.selectCached
  dsimp only
  cases b with
  | readable =>
      rw [show call.readfdset = some a from ha]
      exact ((h.report_self hbit).report _ _ _ _).report _ _ _ _
  | writable =>
      rw [show call.writefdset = some a from ha]
      exact ((h.report _ _ _ _).report_self hbit).report _ _ _ _
  | closed =>
      rw [show call.excfdset = some a from ha]
      exact ((h.report _ _ _ _).report _ _ _ _).report_self hbit

/-- The walk reports every socket of the list. -/
theorem Wants.walkCache {xs : List ℕ} {n : ℕ} {at' : Option ℕ} (h : Wants c a i reported)
    (hbit : hasBit (c.descr i).localMask b = true) (ha : call.fdsetOf b = some a)
    (hlinked : Linked c.localReadyCache.next at' xs) (hn : xs.length ≤ n) (hi : i ∈ xs) :
    Wants (SelectClient.walkCache call c n at') a i true := by
  induction xs generalizing c n at' with
  | nil => cases hi
  | cons x xs ih =>
      obtain ⟨rfl, hrest⟩ := hlinked
      obtain ⟨m, rfl⟩ : ∃ m, n = m + 1 := ⟨n - 1, by simp only [List.length_cons] at hn; omega⟩
      simp only [List.length_cons, Nat.add_le_add_iff_right] at hn
      unfold SelectClient.walkCache
      rcases List.mem_cons.mp hi with rfl | hi
      · exact SelectClient.walkCache_induct (P := fun d => Wants d a i true)
          (fun _ idx hd => hd.selectCached idx) _ _ _ (h.selectCached_self hbit ha)
      · obtain ⟨fdsets, heq⟩ := c.selectCached_eq call x
        refine ih (h.selectCached x) ?_ ?_ hn hi
        · rw [heq]
          exact hbit
        · rw [heq]
          exact hrest

theorem Wants.clearReturned (h : Wants c a i false) : Wants (c.clearReturned call) a i false := by
  have hclear : ∀ d address, Wants d a i false →
      Wants (d.modifyFdset address .clearReturned) a i false := fun d address hd =>
    hd.modifyFdset address (fun _ => rfl) (fun _ => rfl) fun _ _ _ hfalse => by cases hfalse
  exact hclear _ _ (hclear _ _ (hclear _ _ h))

/-- What a caller sees of a socket that is reported. -/
def Reports (c : SelectClient) (call : SelectCall) (a i : ℕ) : Prop :=
  ∃ ret c' dequeued f, c.select call = .returned ret c' dequeued ∧ 0 < ret ∧
    c'.fdsets a = some f ∧ f.returnedFlags i = true ∧ i ∈ f.returned

/-- The loop over the list has a limit that covers it. -/
theorem CacheOf.limit {xs : List ℕ} {s : ℤ} (hinv : CacheInv c) (h : CacheOf c s xs) :
    (c.queueLength s % 4294967296).toNat = xs.length := by
  have hsub : xs ⊆ List.range connectionPoolSize := fun j hj =>
    List.mem_range.mpr (hinv.bounded j ((h.mem j).mp hj).1)
  have hle := (h.holds.nodup.subperm hsub).length_le
  rw [List.length_range] at hle
  have hsize : connectionPoolSize = 2048 := rfl
  rw [h.length, Int.emod_eq_of_lt (by omega) (by omega)]
  rfl

/-- **A select reports what is in the list.** -/
theorem CacheInv.reports (hinv : CacheInv c) (hkept : WorkingOn [] c.fdsets)
    (hselector : call.selector = (c.descr i).select)
    (hpresent : (c.descr i).presentInReadyCache = true)
    (hbit : hasBit (c.descr i).localMask b = true) (ha : call.fdsetOf b = some a)
    (hwants : Wants c a i false) : Reports c call a i := by
  obtain ⟨xs, hxs⟩ := hinv.lists call.selector
  obtain ⟨fdsets, hclear⟩ := c.clearReturned_eq call
  have hlinked : Linked (c.clearReturned call).localReadyCache.next
      (c.localReadyCache.first call.selector) xs := by
    rw [hclear]
    exact hxs.holds.linked
  have hwalk : Wants (SelectClient.walkCache call (c.clearReturned call)
      (c.queueLength call.selector % 4294967296).toNat
      (c.localReadyCache.first call.selector)) a i true := by
    refine hwants.clearReturned.walkCache (b := b) ?_ ha hlinked ?_ ?_
    · rw [hclear]
      exact hbit
    · exact (hxs.limit hinv).ge
    · exact (hxs.mem i).mpr ⟨hpresent, hselector.symm⟩
  have hwork : WorkingOn call.fdsets (SelectClient.walkCache call (c.clearReturned call)
      (c.queueLength call.selector % 4294967296).toNat
      (c.localReadyCache.first call.selector)).fdsets := by
    refine SelectClient.walkCache_induct (P := fun d => WorkingOn call.fdsets d.fdsets)
      (fun _ idx hd => hd.selectCached idx) _ _ _ ?_
    have hread := hkept.clearReturned call.readfdset
    exact (hread.clearReturned call.writefdset).clearReturned call.excfdset
  generalize hd : SelectClient.walkCache call _ _ _ = d at hwalk hwork
  obtain ⟨f, hf, -, hflag⟩ := hwalk
  have hexact := (hwork a f hf).2 (ha ▸ call.fdsetOf_mem b)
  have hmem := hexact.flags i (hflag rfl)
  -- One result is enough for the select to return at once.
  have hpos : 0 < d.returnedIdx (some a) := by
    have hlen := List.length_pos_of_mem hmem
    simpa [Fdset.returned, SelectClient.returnedIdx, hf] using hlen
  have hret : 0 < d.selectRet call := by
    rw [← ha] at hpos
    unfold SelectClient.selectRet
    cases b <;> simp only [SelectCall.fdsetOf] at hpos <;> omega
  refine ⟨d.selectRet call, d, [], f, ?_, by exact_mod_cast hret, hf, hflag rfl, hmem⟩
  unfold SelectClient.select
  dsimp only
  rw [hd]
  unfold SelectClient.restartWaiting
  rw [if_pos hret.ne']

/-! ## What is owed -/

/-- The library, and what it owes: the bits of a socket that a select on its selector in
level mode has dequeued, until something takes them back. -/
structure LevelState where
  client : SelectClient
  owed : ℕ → ReadyBit → Bool

/-- An entry is for the socket and has the bit. -/
def entryHas (i : ℕ) (b : ReadyBit) (e : BitVec 32) : Bool :=
  decide (readySocket e = i) && hasBit (e >>> 16) b

namespace LevelState

variable (l : LevelState)

/-- Nothing is owed for the socket any more. -/
def forget (i : ℕ) : ℕ → ReadyBit → Bool := Function.update l.owed i fun _ => false

/-- The bit of the socket is not owed any more. -/
def forgetBit (i : ℕ) (b : ReadyBit) : ℕ → ReadyBit → Bool :=
  Function.update l.owed i (Function.update (l.owed i) b false)

/-- What is owed after a call.  A receive that returns -1 takes back READABLE, a failed
send takes back WRITABLE; closing, shutting down and opening take back everything.  A
socket that goes to another selector and a selector that goes to edge mode are owed
nothing. -/
def owedAfter : SelectStep → ℕ → ReadyBit → Bool
  | .select call =>
      match l.client.select call with
      | .returned _ _ dequeued => fun i b =>
          l.owed i b || (l.client.levelMode call.selector &&
            decide ((l.client.descr i).select = call.selector) && dequeued.any (entryHas i b))
      | .exited | .waiting => l.owed
  | .receiveFailed i => l.forgetBit i .readable
  | .sendFailed i => l.forgetBit i .writable
  | .close i | .shutdown i | .openSocket i _ | .accept i => l.forget i
  | .setSocketSelect i s => if s = (l.client.descr i).select then l.owed else l.forget i
  | .setSelectorMode s mode => fun i b =>
      l.owed i b && (mode || decide ((l.client.descr i).select ≠ s))
  | .post _ _ | .fdzero _ | .fdset _ _ | .fdclear _ _ => l.owed

end LevelState

/-- The library with what it owes.  The record of what is owed is written at each call and never
read by one, so every run of it is a run of the library. -/
def levelMachine (stray : Bool) : Machine LevelState SelectStep where
  init := ⟨(selectMachine stray).init, fun _ _ => false⟩
  step l a := ((selectMachine stray).step l.client a).map fun c => ⟨c, l.owedAfter a⟩

/-- Every select reports what is owed: whenever it is called on the selector of the
socket with an fdset for the bit that is interested in the socket. -/
def LevelReports (l : LevelState) : Prop :=
  ∀ i b, l.owed i b = true →
    ∀ (call : SelectCall) (a : ℕ) (f : Fdset), l.client.enabled (.select call) →
      call.selector = (l.client.descr i).select → call.fdsetOf b = some a →
      l.client.fdsets a = some f → f.interestedFlags i = true → Reports l.client call a i

/-- The calls after which everything owed is reported: those that leave the cache in
order, and `ipaugenblick_fdclear` of a socket for which something is owed only when no
other fdset is interested in it. -/
def levelStepOk (l : LevelState) (a : SelectStep) : Prop :=
  cacheStepOk l.client a ∧
    match a with
    | .fdclear i address =>
        (∃ b, l.owed i b = true) →
          ∀ other f, other ≠ address → l.client.fdsets other = some f →
            f.interestedFlags i = false
    | _ => True

/-- What is owed is in the mask, and the socket in the list unless nobody is interested. -/
structure Remembered (c : SelectClient) (i : ℕ) (b : ReadyBit) : Prop where
  selector : (c.descr i).select ≠ -1
  level : c.levelMode (c.descr i).select = true
  bit : hasBit (c.descr i).localMask b = true
  listed : (c.descr i).presentInReadyCache = true ∨
    ∀ a f, c.fdsets a = some f → f.interestedFlags i = false

structure LevelInv (l : LevelState) : Prop where
  cache : CacheInv l.client
  kept : WorkingOn [] l.client.fdsets
  remembered : ∀ i b, l.owed i b = true → Remembered l.client i b

theorem LevelInv.reports {l : LevelState} (h : LevelInv l) : LevelReports l := by
  intro i b howed call a f _ hselector ha hf hinterest
  obtain ⟨-, -, hbit, hlisted⟩ := h.remembered i b howed
  have hpresent : (l.client.descr i).presentInReadyCache = true := by
    rcases hlisted with hpresent | hnobody
    · exact hpresent
    · rw [hnobody a f hf] at hinterest
      cases hinterest
  exact h.cache.reports h.kept hselector hpresent hbit ha
    ⟨f, hf, hinterest, fun hfalse => by cases hfalse⟩

/-- A socket that a call does not touch stays remembered. -/
theorem Remembered.congr (h : Remembered c i b) (hdescr : c'.descr i = c.descr i)
    (hlevel : c'.levelMode (c.descr i).select = c.levelMode (c.descr i).select)
    (hinterest : ∀ a f, c'.fdsets a = some f → f.interestedFlags i = true →
      ∃ g, c.fdsets a = some g ∧ g.interestedFlags i = true) : Remembered c' i b where
  selector := hdescr ▸ h.selector
  level := by
    rw [hdescr, hlevel]
    exact h.level
  bit := hdescr ▸ h.bit
  listed := by
    rw [hdescr]
    refine h.listed.imp_right fun hnobody a f hf => ?_
    by_contra hi
    obtain ⟨g, hg, hgi⟩ := hinterest a f hf (Bool.not_eq_false _ ▸ hi)
    rw [hnobody a g hg] at hgi
    cases hgi

/-! ## What the calls do to a socket -/

theorem SelectClient.putToLocalCache_levelMode (c : SelectClient) (i : ℕ) :
    (c.putToLocalCache i).levelMode = c.levelMode := by
  unfold SelectClient.putToLocalCache
  dsimp only
  split_ifs <;> rfl

theorem SelectClient.removeSocketFromCache_levelMode (c : SelectClient) (i : ℕ) :
    (c.removeSocketFromCache i).levelMode = c.levelMode := by
  unfold SelectClient.removeSocketFromCache
  dsimp only
  split_ifs
  · cases c.localReadyCache.remove (c.descr i).select i with
    | none => rfl
    | some cache => rfl
  · rfl
  · rfl

/-- Putting a socket into the list marks it, when it is ready and its selector is in
level mode. -/
theorem SelectClient.descr_putToLocalCache (c : SelectClient) (i : ℕ) :
    ∃ present, (c.putToLocalCache i).descr =
        Function.update c.descr i { c.descr i with presentInReadyCache := present } ∧
      ((c.descr i).presentInReadyCache = true → present = true) ∧
      ((c.descr i).localMask ≠ 0 → (c.descr i).select ≠ -1 →
        c.levelMode (c.descr i).select = true → present = true) := by
  unfold SelectClient.putToLocalCache
  dsimp only
  split_ifs with hmask hpresent hlevel hnone
  · exact ⟨_, (Function.update_eq_self i c.descr).symm, id, fun h => absurd hmask h⟩
  · exact ⟨_, (Function.update_eq_self i c.descr).symm, id, fun _ _ _ => hpresent⟩
  · exact ⟨_, (Function.update_eq_self i c.descr).symm, id, fun _ h => absurd hnone h⟩
  · exact ⟨true, rfl, fun _ => rfl, fun _ _ _ => rfl⟩
  · exact ⟨_, (Function.update_eq_self i c.descr).symm, id, fun _ _ h => absurd h hlevel⟩

theorem SelectClient.descr_removeSocketFromCache (c : SelectClient) (i : ℕ) :
    ∃ present, (c.removeSocketFromCache i).descr =
        Function.update c.descr i { c.descr i with presentInReadyCache := present } := by
  unfold SelectClient.removeSocketFromCache
  dsimp only
  split_ifs
  · cases c.localReadyCache.remove (c.descr i).select i with
    | none => exact ⟨_, (Function.update_eq_self i c.descr).symm⟩
    | some cache => exact ⟨false, rfl⟩
  · exact ⟨_, (Function.update_eq_self i c.descr).symm⟩
  · exact ⟨_, (Function.update_eq_self i c.descr).symm⟩

theorem Remembered.removeSocketFromCache (h : Remembered c i b) {sock : ℕ} (hne : i ≠ sock) :
    Remembered (c.removeSocketFromCache sock) i b := by
  refine h.congr ?_ ?_ ?_
  · obtain ⟨present, hdescr⟩ := c.descr_removeSocketFromCache sock
    rw [hdescr, Function.update_of_ne hne]
  · rw [SelectClient.removeSocketFromCache_levelMode]
  · rw [SelectClient.removeSocketFromCache_fdsets]
    exact fun a f hf hi => ⟨f, hf, hi⟩

theorem Remembered.setDescr (h : Remembered c i b) {sock : ℕ} (hne : i ≠ sock)
    (d : SocketDescr) : Remembered (c.setDescr sock d) i b :=
  h.congr (Function.update_of_ne hne _ _) rfl fun _ f hf hi => ⟨f, hf, hi⟩

theorem Remembered.updateLocalReadyCache (h : Remembered c i b) {sock : ℕ} (bit : ReadyBit)
    (hother : i = sock → b ≠ bit) : Remembered (c.updateLocalReadyCache sock bit) i b := by
  unfold SelectClient.updateLocalReadyCache
  dsimp only
  by_cases hi : i = sock
  · subst hi
    have hbit : hasBit ((c.descr i).localMask &&& ~~~bit.mask) b = true := by
      rw [hasBit_clear, h.bit]
      simpa using hother rfl
    rw [if_neg h.selector, if_pos (ne_zero_of_hasBit hbit)]
    obtain ⟨hselector, hlevel, -, hlisted⟩ := h
    constructor <;> simp only [SelectClient.setDescr, Function.update_self]
    · exact hselector
    · exact hlevel
    · exact hbit
    · exact hlisted
  · split_ifs
    · exact h
    · exact h.setDescr hi _
    · exact (h.setDescr hi _).removeSocketFromCache hi

/-- A socket that an fdset asks for is put into the list. -/
theorem Remembered.fdset (h : Remembered c i b) (sock address : ℕ) :
    Remembered ((c.modifyFdset (some address) fun set => set.fdset sock).putToLocalCache sock)
      i b := by
  obtain ⟨present, hdescr, -, hput⟩ :=
    (c.modifyFdset (some address) fun set => set.fdset sock).descr_putToLocalCache sock
  by_cases hi : i = sock
  · subst hi
    have hpresent := hput (ne_zero_of_hasBit h.bit) h.selector h.level
    constructor <;> rw [hdescr, Function.update_self]
    · exact h.selector
    · rw [SelectClient.putToLocalCache_levelMode]
      exact h.level
    · exact h.bit
    · exact .inl hpresent
  · refine h.congr ?_ ?_ ?_
    · rw [hdescr, Function.update_of_ne hi]
      rfl
    · rw [SelectClient.putToLocalCache_levelMode]
      rfl
    · rw [SelectClient.putToLocalCache_fdsets]
      intro a f hf hfi
      rcases SelectClient.fdsets_modifyFdset hf with ⟨-, g, hg, rfl⟩ | ⟨-, hf⟩
      · refine ⟨g, hg, ?_⟩
        simpa [Fdset.fdset, Function.update_of_ne hi] using hfi
      · exact ⟨f, hf, hfi⟩

/-- A socket that an fdset drops leaves the list; it is remembered when no other fdset
asks for it. -/
theorem Remembered.fdclear (h : Remembered c i b) (sock address : ℕ)
    (hothers : i = sock → ∀ other f, other ≠ address → c.fdsets other = some f →
      f.interestedFlags i = false) :
    Remembered ((c.modifyFdset (some address) fun set => set.fdclear sock).removeSocketFromCache
      sock) i b := by
  obtain ⟨present, hdescr⟩ :=
    (c.modifyFdset (some address) fun set => set.fdclear sock).descr_removeSocketFromCache sock
  by_cases hi : i = sock
  · subst hi
    constructor <;> rw [hdescr, Function.update_self]
    · exact h.selector
    · rw [SelectClient.removeSocketFromCache_levelMode]
      exact h.level
    · exact h.bit
    · right
      rw [SelectClient.removeSocketFromCache_fdsets]
      intro a f hf
      rcases SelectClient.fdsets_modifyFdset hf with ⟨-, g, -, rfl⟩ | ⟨hne, hf⟩
      · simp [Fdset.fdclear]
      · exact hothers rfl a f (fun heq => hne (heq ▸ rfl)) hf
  · have hmodified :
        Remembered (c.modifyFdset (some address) fun set => set.fdclear sock) i b := by
      refine h.congr rfl rfl fun a f hf hfi => ?_
      rcases SelectClient.fdsets_modifyFdset hf with ⟨-, g, hg, rfl⟩ | ⟨-, hf⟩
      · refine ⟨g, hg, ?_⟩
        simpa [Fdset.fdclear, Function.update_of_ne hi] using hfi
      · exact ⟨f, hf, hfi⟩
    exact hmodified.removeSocketFromCache hi

/-- Who is interested in what. -/
def interests (c : SelectClient) (a : ℕ) : Option (ℕ → Bool) :=
  (c.fdsets a).map Fdset.interestedFlags

/-- What a select has done so far: masks and marks only grow, and every entry it has
dequeued for a socket of a selector in level mode is in the mask, the socket in the
list. -/
structure Selecting (c d : SelectClient) (dequeued : List (BitVec 32)) : Prop where
  select : ∀ i, (d.descr i).select = (c.descr i).select
  levelMode : d.levelMode = c.levelMode
  interest : interests d = interests c
  mask : ∀ i b, hasBit (c.descr i).localMask b = true → hasBit (d.descr i).localMask b = true
  present : ∀ i, (c.descr i).presentInReadyCache = true → (d.descr i).presentInReadyCache = true
  taken : ∀ e ∈ dequeued, ∀ i b, entryHas i b e = true → (c.descr i).select ≠ -1 →
    c.levelMode (c.descr i).select = true →
    hasBit (d.descr i).localMask b = true ∧ (d.descr i).presentInReadyCache = true

variable {d d' : SelectClient} {dequeued : List (BitVec 32)}

theorem interests_modifyFdset {change : Fdset → Fdset}
    (h : ∀ f, (change f).interestedFlags = f.interestedFlags) (address : Option ℕ) :
    interests (c.modifyFdset address change) = interests c := by
  cases address with
  | none => rfl
  | some k =>
      funext a
      by_cases hak : a = k
      · subst hak
        cases hf : c.fdsets a with
        | none => simp [interests, SelectClient.modifyFdset, hf]
        | some f => simp [interests, SelectClient.modifyFdset, hf, h]
      · simp [interests, SelectClient.modifyFdset, Function.update_of_ne hak]

theorem interests_report (address : Option ℕ) (mask : BitVec 32) (bit : ReadyBit) (idx : ℕ) :
    interests (c.report address mask bit idx) = interests c := by
  unfold SelectClient.report
  split
  · exact interests_modifyFdset (fun f => f.updateFdset_interest idx) address
  · rfl

/-- Changes of the fdsets that keep the interests. -/
theorem Selecting.fdsets (h : Selecting c d dequeued) {fdsets : ℕ → Option Fdset}
    (hinterest : interests { d with fdsets := fdsets } = interests d) :
    Selecting c { d with fdsets := fdsets } dequeued where
  select := h.select
  levelMode := h.levelMode
  interest := hinterest.trans h.interest
  mask := h.mask
  present := h.present
  taken := h.taken

theorem Selecting.report (h : Selecting c d dequeued) (address : Option ℕ) (mask : BitVec 32)
    (bit : ReadyBit) (idx : ℕ) : Selecting c (d.report address mask bit idx) dequeued := by
  have hinterest := interests_report (c := d) address mask bit idx
  obtain ⟨fdsets, heq⟩ := d.report_eq address mask bit idx
  rw [heq] at hinterest ⊢
  exact h.fdsets hinterest

theorem Selecting.clearReturned (h : Selecting c d dequeued) :
    Selecting c (d.clearReturned call) dequeued := by
  have hinterest : interests (d.clearReturned call) = interests d := by
    have hclear : ∀ f : Fdset, f.clearReturned.interestedFlags = f.interestedFlags :=
      fun _ => rfl
    unfold SelectClient.clearReturned
    rw [interests_modifyFdset hclear, interests_modifyFdset hclear, interests_modifyFdset hclear]
  obtain ⟨fdsets, heq⟩ := d.clearReturned_eq call
  rw [heq] at hinterest ⊢
  exact h.fdsets hinterest

/-- **One entry.**  Its bits go to the mask of its socket, and the socket to the list. -/
theorem Selecting.take (h : Selecting c d dequeued) (e : BitVec 32)
    (hselect : (d.descr (readySocket e)).select ≠ -1) :
    Selecting c ((d.setDescr (readySocket e)
      { d.descr (readySocket e) with
        localMask := (d.descr (readySocket e)).localMask ||| e >>> 16 }).putToLocalCache
          (readySocket e)) (dequeued ++ [e]) := by
  generalize hmid : d.setDescr (readySocket e) _ = mid
  have hdescr : mid.descr = Function.update d.descr (readySocket e)
      { d.descr (readySocket e) with
        localMask := (d.descr (readySocket e)).localMask ||| e >>> 16 } := by
    rw [← hmid]
    rfl
  obtain ⟨present, hput, hstays, hnew⟩ := mid.descr_putToLocalCache (readySocket e)
  have hself : (mid.putToLocalCache (readySocket e)).descr (readySocket e) =
      ⟨(d.descr (readySocket e)).select, (d.descr (readySocket e)).localMask ||| e >>> 16,
        present⟩ := by
    rw [hput, Function.update_self, hdescr, Function.update_self]
  have hother : ∀ i, i ≠ readySocket e →
      (mid.putToLocalCache (readySocket e)).descr i = d.descr i := by
    intro i hi
    rw [hput, Function.update_of_ne hi, hdescr, Function.update_of_ne hi]
  rw [hdescr, Function.update_self] at hstays hnew
  have hmode : mid.levelMode = c.levelMode := by
    rw [← hmid]
    exact h.levelMode
  refine ⟨fun i => ?_, ?_, ?_, fun i b hbit => ?_, fun i hi => ?_, fun k hk i b hb hs hl => ?_⟩
  · by_cases hi : i = readySocket e
    · rw [hi, hself]
      exact h.select _
    · rw [hother i hi]
      exact h.select i
  · rw [SelectClient.putToLocalCache_levelMode, hmode]
  · funext a
    unfold interests
    rw [SelectClient.putToLocalCache_fdsets, ← hmid]
    exact congrFun h.interest a
  · by_cases hi : i = readySocket e
    · rw [hi, hself, hasBit_or, h.mask _ b (hi ▸ hbit), Bool.true_or]
    · rw [hother i hi]
      exact h.mask i b hbit
  · by_cases hie : i = readySocket e
    · rw [hie, hself]
      exact hstays (h.present _ (hie ▸ hi))
    · rw [hother i hie]
      exact h.present i hi
  · by_cases hi : i = readySocket e
    · subst hi
      have hbit : hasBit ((d.descr (readySocket e)).localMask ||| e >>> 16) b = true := by
        rw [hasBit_or]
        rcases List.mem_append.mp hk with hk | hk
        · rw [(h.taken k hk _ b hb hs hl).1, Bool.true_or]
        · rw [List.mem_singleton.mp hk] at hb
          simp only [entryHas, decide_true, Bool.true_and] at hb
          rw [hb, Bool.or_true]
      rw [hself]
      refine ⟨hbit, hnew (ne_zero_of_hasBit hbit) hselect ?_⟩
      rw [hmode, h.select]
      exact hl
    · rw [hother i hi]
      rcases List.mem_append.mp hk with hk | hk
      · exact h.taken k hk i b hb hs hl
      · rw [List.mem_singleton.mp hk] at hb
        simp only [entryHas, Bool.and_eq_true, decide_eq_true_eq] at hb
        exact absurd hb.1.symm hi

/-- An entry of a socket that has no selector is dropped. -/
theorem Selecting.skip (h : Selecting c d dequeued) (e : BitVec 32)
    (hselect : (d.descr (readySocket e)).select = -1) : Selecting c d (dequeued ++ [e]) where
  select := h.select
  levelMode := h.levelMode
  interest := h.interest
  mask := h.mask
  present := h.present
  taken k hk i b hb hs hl := by
    rcases List.mem_append.mp hk with hk | hk
    · exact h.taken k hk i b hb hs hl
    · rw [List.mem_singleton.mp hk] at hb
      simp only [entryHas, Bool.and_eq_true, decide_eq_true_eq] at hb
      obtain ⟨rfl, -⟩ := hb
      exact absurd ((h.select _).symm.trans hselect) hs

theorem Selecting.selectEntry (h : Selecting c d dequeued) (e : BitVec 32)
    (hrun : d.selectEntry call e = some d') : Selecting c d' (dequeued ++ [e]) := by
  unfold SelectClient.selectEntry at hrun
  dsimp only at hrun
  split at hrun
  · cases hrun
  · split at hrun
    · rename_i hselect
      cases hrun
      exact h.skip e hselect
    · rename_i hselect
      have htake := h.take e hselect
      split at hrun
      · cases hrun
        exact (htake.report _ _ _ _).report _ _ _ _
      · cases hrun
        exact (htake.report _ _ _ _).report _ _ _ _

/-- **A select** remembers all it has dequeued. -/
theorem Selecting.of_select {ret : ℤ} (hrun : c.select call = .returned ret c' dequeued) :
    Selecting c c' dequeued := by
  have hstart : Selecting c c [] :=
    ⟨fun _ => rfl, rfl, rfl, fun _ _ h => h, fun _ h => h, fun _ hmem => by cases hmem⟩
  refine (SelectClient.select_induct (P := Selecting c) hstart.clearReturned ?_ ?_ ?_ hrun).1
  · exact fun d idx h => ((h.report _ _ _ _).report _ _ _ _).report _ _ _ _
  · exact fun d before s entries h =>
      ⟨h.select, h.levelMode, h.interest, h.mask, h.present, h.taken⟩
  · exact fun d before e d' h hentry => h.selectEntry e hentry

theorem interest_of_interests {f : Fdset} (h : interests c' = interests c)
    (hf : c'.fdsets a = some f) :
    ∃ g, c.fdsets a = some g ∧ g.interestedFlags = f.interestedFlags := by
  have ha := congrFun h a
  unfold interests at ha
  rw [hf] at ha
  exact Option.map_eq_some_iff.mp ha.symm

theorem Remembered.select {ret : ℤ} (h : Remembered c i b)
    (hrun : c.select call = .returned ret c' dequeued) : Remembered c' i b := by
  have hselecting := Selecting.of_select hrun
  constructor
  · rw [hselecting.select]
    exact h.selector
  · rw [hselecting.select, hselecting.levelMode]
    exact h.level
  · exact hselecting.mask i b h.bit
  · refine h.listed.imp (hselecting.present i) fun hnobody a f hf => ?_
    obtain ⟨g, hg, heq⟩ := interest_of_interests hselecting.interest hf
    rw [← heq]
    exact hnobody a g hg

/-- What a select on the socket's own selector has dequeued for it is remembered. -/
theorem Remembered.of_dequeued {ret : ℤ} (hrun : c.select call = .returned ret c' dequeued)
    (hselector : IsSelector call.selector) (hlevel : c.levelMode call.selector = true)
    (hi : (c.descr i).select = call.selector) (hany : dequeued.any (entryHas i b) = true) :
    Remembered c' i b := by
  obtain ⟨e, he, hbit⟩ := List.any_eq_true.mp hany
  have hselecting := Selecting.of_select hrun
  have hne : (c.descr i).select ≠ -1 := by
    obtain ⟨hpos, -⟩ := hselector
    omega
  obtain ⟨hmask, hpresent⟩ := hselecting.taken e he i b hbit hne (hi ▸ hlevel)
  constructor
  · rw [hselecting.select]
    exact hne
  · rw [hselecting.select, hselecting.levelMode, hi]
    exact hlevel
  · exact hmask
  · exact .inl hpresent

/-! ## Runs -/

theorem owed_of_forget {l : LevelState} {sock : ℕ} (h : l.forget sock i b = true) :
    i ≠ sock ∧ l.owed i b = true := by
  unfold LevelState.forget at h
  by_cases hi : i = sock
  · subst hi
    simp at h
  · rw [Function.update_of_ne hi] at h
    exact ⟨hi, h⟩

theorem owed_of_forgetBit {l : LevelState} {sock : ℕ} {bit : ReadyBit}
    (h : l.forgetBit sock bit i b = true) : (i = sock → b ≠ bit) ∧ l.owed i b = true := by
  unfold LevelState.forgetBit at h
  by_cases hi : i = sock
  · subst hi
    rw [Function.update_self] at h
    by_cases hb : b = bit
    · subst hb
      simp at h
    · rw [Function.update_of_ne hb] at h
      exact ⟨fun _ => hb, h⟩
  · rw [Function.update_of_ne hi] at h
    exact ⟨fun heq => absurd heq hi, h⟩

theorem Remembered.reset (h : Remembered c i b) {sock : ℕ} (hne : i ≠ sock) :
    Remembered (c.resetLocalDescriptor sock) i b :=
  h.congr (Function.update_of_ne hne _ _) rfl fun _ f hf hi => ⟨f, hf, hi⟩

theorem remembered_step {l : LevelState} {a : SelectStep} (h : LevelInv l)
    (hallowed : l.client.allowed a = true) (hok : levelStepOk l a)
    (hrun : l.client.perform a = some c') {i : ℕ} {b : ReadyBit}
    (howed : l.owedAfter a i b = true) : Remembered c' i b := by
  cases a with
  | post selector e =>
      cases hrun
      exact (h.remembered i b howed).congr rfl rfl fun _ f hf hi => ⟨f, hf, hi⟩
  | openSocket sock parent =>
      cases hrun
      obtain ⟨hi, howed⟩ := owed_of_forget howed
      exact ((h.remembered i b howed).reset hi).setDescr hi _
  | accept sock =>
      cases hrun
      obtain ⟨hi, howed⟩ := owed_of_forget howed
      exact (h.remembered i b howed).reset hi
  | setSocketSelect sock select =>
      cases hrun
      simp only [LevelState.owedAfter] at howed
      split at howed
      · rename_i hsame
        have hdescr : (l.client.setSelect sock select).descr = l.client.descr := by
          rw [hsame]
          exact Function.update_eq_self sock l.client.descr
        exact (h.remembered i b howed).congr (by rw [hdescr]) rfl fun _ f hf hi => ⟨f, hf, hi⟩
      · obtain ⟨hi, howed⟩ := owed_of_forget howed
        exact (h.remembered i b howed).setDescr hi _
  | setSelectorMode select mode =>
      cases hrun
      simp only [LevelState.owedAfter, Bool.and_eq_true] at howed
      have hrem := h.remembered i b howed.1
      split
      · exact hrem
      · refine hrem.congr rfl ?_ fun _ f hf hi => ⟨f, hf, hi⟩
        dsimp only
        by_cases hs : (l.client.descr i).select = select
        · obtain rfl : mode = true := by simpa [hs] using howed.2
          rw [hs, Function.update_self, ← hs, hrem.level]
        · rw [Function.update_of_ne hs]
  | fdzero address =>
      cases hrun
      refine (h.remembered i b howed).congr rfl rfl fun a f hf hi => ?_
      by_cases ha : a = address
      · simp only [ha, Function.update_self, Option.some.injEq] at hf
        rw [← hf] at hi
        cases hi
      · simp only [Function.update_of_ne ha] at hf
        exact ⟨f, hf, hi⟩
  | fdset sock address =>
      cases hrun
      exact (h.remembered i b howed).fdset sock address
  | fdclear sock address =>
      cases hrun
      refine (h.remembered i b howed).fdclear sock address fun hi other f hne hf => ?_
      subst hi
      exact hok.2 ⟨b, howed⟩ other f hne hf
  | select call =>
      simp only [SelectClient.perform] at hrun
      simp only [LevelState.owedAfter] at howed
      split at hrun
      · rename_i ret c' dequeued hselect
        cases hrun
        simp only [hselect, Bool.or_eq_true, Bool.and_eq_true, decide_eq_true_eq] at howed
        simp only [SelectClient.allowed, Bool.and_eq_true, decide_eq_true_eq] at hallowed
        rcases howed with howed | ⟨⟨hlevel, hi⟩, hany⟩
        · exact (h.remembered i b howed).select hselect
        · exact Remembered.of_dequeued hselect hallowed.1.1.1 hlevel hi hany
      · cases hrun
      · cases hrun
  | sendFailed sock | receiveFailed sock =>
      cases hrun
      obtain ⟨hother, howed⟩ := owed_of_forgetBit howed
      exact (h.remembered i b howed).updateLocalReadyCache _ hother
  | shutdown sock =>
      cases hrun
      obtain ⟨hi, howed⟩ := owed_of_forget howed
      exact (h.remembered i b howed).removeSocketFromCache hi
  | close sock =>
      cases hrun
      obtain ⟨hi, howed⟩ := owed_of_forget howed
      exact ((h.remembered i b howed).removeSocketFromCache hi).setDescr hi _

theorem levelInv_step {stray : Bool} {l l' : LevelState} {a : SelectStep} (h : LevelInv l)
    (hok : levelStepOk l a) (hstep : (levelMachine stray).step l a = some l') : LevelInv l' := by
  obtain ⟨c', hclient, rfl⟩ := Option.map_eq_some_iff.mp hstep
  obtain ⟨henabled, hrun⟩ := selectMachine_step.mp hclient
  exact
    { cache := cacheInv_step h.cache hok.1 hclient
      kept := h.kept.perform henabled.2 hrun
      remembered := fun i b howed => remembered_step h henabled.2 hok hrun howed }

theorem levelInv_init (stray : Bool) : LevelInv (levelMachine stray).init where
  cache := cacheInv_init stray
  kept a f hf := by cases hf
  remembered i b howed := by cases howed

/-- **Level mode.**  In every run whose calls keep to the condition, every select
reports what is owed. -/
theorem level_mode_reports {stray : Bool} {l : LevelState}
    (h : (levelMachine stray).ReachableWhere levelStepOk l) : LevelReports l := by
  refine LevelInv.reports ?_
  refine Machine.invariant_of_step _ (levelInv_init stray) ?_ h
  intro l a l' hinv hok hstep
  exact levelInv_step hinv hok hstep

/-- Two fdsets ask for a socket, which becomes readable; a select with the first of them
learns of it. -/
def watchedByTwo : List SelectStep :=
  [.setSelectorMode 0 true, .openSocket 3 0, .fdzero 7, .fdzero 8, .fdset 3 7, .fdset 3 8,
    .post 0 (ringidxReadyMask 3 .readable), .select ⟨0, some 7, none, none, .zero, [⟨[], false⟩]⟩]

/-- A select that watches the second fdset for reading. -/
def watchSecond : SelectCall := ⟨0, some 8, none, none, .zero, [⟨[], false⟩]⟩

/-- A condition that can be checked along a run: nobody drops a socket. -/
def keepsInterest (l : LevelState) (a : SelectStep) : Prop :=
  cacheStepOk l.client a ∧ match a with | .fdclear _ _ => False | _ => True

instance (l : LevelState) : ∀ a, Decidable (keepsInterest l a)
  | .fdclear _ _ => .isFalse And.right
  | .post _ _ | .openSocket _ _ | .accept _ | .setSocketSelect _ _ | .setSelectorMode _ _
  | .fdzero _ | .fdset _ _ | .select _ | .sendFailed _ | .receiveFailed _ | .shutdown _
  | .close _ => inferInstanceAs (Decidable (cacheStepOk l.client _ ∧ True))

theorem levelStepOk_of_keepsInterest (l : LevelState) (a : SelectStep) (h : keepsInterest l a) :
    levelStepOk l a := by
  refine ⟨h.1, ?_⟩
  cases a with
  | fdclear sock address => exact h.2.elim
  | _ => trivial

theorem level_mode_reports_second :
    ∃ l, (levelMachine false).ReachableWhere levelStepOk l ∧ Reports l.client watchSecond 8 3 := by
  have hrun : (((levelMachine false).restrict keepsInterest).run watchedByTwo).map
      (fun l => (l.owed 3 .readable, decide (l.client.enabled (.select watchSecond)),
        (l.client.descr 3).select, (l.client.fdsets 8).map fun f => f.interestedFlags 3)) =
      some (true, true, 0, some true) := by decide +kernel
  obtain ⟨l, hrun, hl⟩ := Option.map_eq_some_iff.mp hrun
  simp only [Prod.mk.injEq, decide_eq_true_eq] at hl
  obtain ⟨howed, henabled, hselect, hinterest⟩ := hl
  obtain ⟨f, hf, hinterest⟩ := Option.map_eq_some_iff.mp hinterest
  have hreach := (Machine.reachableWhere_of_run _ hrun).mono levelStepOk_of_keepsInterest
  exact ⟨l, hreach, level_mode_reports hreach 3 .readable howed watchSecond 8 f henabled
    hselect.symm rfl hf hinterest⟩

/-- The first fdset drops the socket, and the second does not get it any more. -/
theorem level_mode_fdclear_suppresses :
    ¬ ∀ l, (levelMachine false).Reachable l → LevelReports l := by
  intro h
  have hrun : ((levelMachine false).run (watchedByTwo ++ [.fdclear 3 7])).map
      (fun l => (l.owed 3 .readable, decide (l.client.enabled (.select watchSecond)),
        (l.client.descr 3).select, (l.client.fdsets 8).map fun f => f.interestedFlags 3,
        (l.client.select watchSecond).ret)) =
      some (true, true, 0, some true, some (-1)) := by decide +kernel
  obtain ⟨l, hrun, hl⟩ := Option.map_eq_some_iff.mp hrun
  simp only [Prod.mk.injEq, decide_eq_true_eq] at hl
  obtain ⟨howed, henabled, hselect, hinterest, hret⟩ := hl
  obtain ⟨f, hf, hinterest⟩ := Option.map_eq_some_iff.mp hinterest
  obtain ⟨ret, c', dequeued, -, hreturned, hpos, -⟩ := h l (Machine.reachable_of_run _ hrun) 3
    .readable howed watchSecond 8 f henabled hselect.symm rfl hf hinterest
  rw [hreturned] at hret
  obtain rfl : ret = -1 := Option.some.inj hret
  omega

end IpAugenblick
