/-
# The promise of `ipaugenblick_get_socket_tx_space`

The room in `tx_ring` is a promise: only the client fills the ring.  The credit is taken down by
every send without a look at it, so that the answer can be negative; and TX_POOL_EMPTY needs a
command buffer and room in the command ring, so that a client that was told 0 may wait for a
wake-up that nobody was asked for.
-/

import IpAugenblick.Tx.Space

namespace IpAugenblick

open Lib

/-! ## What is promised -/

section Promise

variable {α : Type} (conn : ℕ)

/-- The client will be told that it may write: a TX_POOL_EMPTY is queued, the service has the
connection in its list or is about to post, or a WRITABLE entry waits in the ready ring. -/
def SpaceSlot.WakePending (s : SpaceSlot α) : Prop :=
  Command.txPoolEmpty conn ∈ s.commandRing.items ∨ s.listed = true ∨ s.service ≠ .idle ∨
    writableEntry conn ∈ s.ready.items

/-- The last answer was 0, and the client has neither sent nor been woken since. -/
def SpaceSender.Waits (c : SpaceSender α) : Prop :=
  c.answer = some 0 ∧ c.sent = 0 ∧ c.woken = false

/-- What a client may rely on. -/
structure PromiseKept (s : SpaceSlot α) : Prop where
  /-- No answer is negative. -/
  nonneg : ∀ n, s.sender.answer = some n → 0 ≤ n
  /-- After an answer `n` none of the next `n` sends of one buffer was refused. -/
  sends : s.sender.refused = false
  /-- After an answer 0 a wake-up is pending. -/
  wakes : s.sender.Waits → s.WakePending conn

/-- Inside a call that will return 0, the flag cleared. -/
def SpaceClientPc.awaits : SpaceClientPc α → Bool
  | .alloc rc => decide (rc = 0)
  | .post rc => decide (rc = 0)
  | _ => false

/-- The client was told 0, or is about to be. -/
def SpaceSender.Expecting (c : SpaceSender α) : Prop := c.pc.awaits = true ∨ c.Waits

/-- The guard of the runs in which the credit is more than one buffer short of nothing at no
reading, an answer 0 finds a command buffer and room in the command ring unless a wake-up is
pending already, and the ready ring has room for the entry of a client that waits unless an
earlier one is there. -/
def spaceOk (s : SpaceSlot α) : SpaceStep α → Prop
  | .client .readCredit => -1448 < s.txSpace.toInt
  | .client .alloc => s.sender.pc.awaits = true → 0 < s.freeCommands ∨ s.WakePending conn
  | .client .post =>
      s.sender.pc.awaits = true → 0 < s.commandRing.freeCount ∨ s.WakePending conn
  | .service .post =>
      s.sender.Expecting → 0 < s.ready.freeCount ∨ writableEntry conn ∈ s.ready.items
  | _ => True

end Promise

/-! ## The numbers -/

theorem limitedByBufs_le (ringSpace freeBufsCount : ℕ) :
    limitedByBufs ringSpace freeBufsCount ≤ ringSpace := by
  unfold limitedByBufs
  split
  next hless => split <;> omega
  next => exact Nat.le_refl _

theorem limitedByCredit_le (rc : ℕ) (txSpace : BitVec 32) : limitedByCredit rc txSpace ≤ rc := by
  unfold limitedByCredit
  split
  next hless => exact Int.le_of_lt hless
  next => exact Int.le_refl _

/-- The division truncates, so a debt of less than one buffer is no debt. -/
theorem bufferCredit_nonneg_iff (txSpace : BitVec 32) :
    0 ≤ bufferCredit txSpace ↔ -1448 < txSpace.toInt := by
  unfold bufferCredit
  rcases Int.le_total 0 txSpace.toInt with hpos | hneg
  · rw [Int.tdiv_eq_ediv_of_nonneg hpos]
    omega
  · have hflip : txSpace.toInt.tdiv 1448 = -((-txSpace.toInt) / 1448) := by
      rw [← Int.tdiv_eq_ediv_of_nonneg (Int.neg_nonneg_of_nonpos hneg), Int.neg_tdiv, neg_neg]
    rw [hflip]
    omega

theorem limitedByCredit_nonneg {rc : ℕ} {txSpace : BitVec 32} (h : -1448 < txSpace.toInt) :
    0 ≤ limitedByCredit rc txSpace := by
  unfold limitedByCredit
  split
  next => exact (bufferCredit_nonneg_iff txSpace).mpr h
  next => exact Int.natCast_nonneg rc

/-- Both calls ask for a wake-up when they are about to return 0. -/
theorem SpaceCall.notifies_zero (call : SpaceCall) : call.notifies 0 = true := by
  cases call <;> rfl

/-! ## The room in the ring -/

section Room

variable {α : Type}

/-- What the sender has counted so far is in the ring. -/
def SpaceClientPc.Fits (free : ℕ) : SpaceClientPc α → Prop
  | .bufs ringSpace => ringSpace ≤ free
  | .credit _ rc => rc ≤ free
  | .clear rc => 0 ≤ rc ∧ rc ≤ free
  | .alloc rc => 0 ≤ rc ∧ rc ≤ free
  | .post rc => 0 ≤ rc ∧ rc ≤ free
  | _ => True

theorem SpaceClientPc.Fits.mono {pc : SpaceClientPc α} {free free' : ℕ} (h : pc.Fits free)
    (hle : free ≤ free') : pc.Fits free' := by
  cases pc with
  | bufs ringSpace => exact Nat.le_trans h hle
  | credit call rc => exact Nat.le_trans h hle
  | clear rc => exact ⟨h.1, Int.le_trans h.2 (Int.ofNat_le.mpr hle)⟩
  | alloc rc => exact ⟨h.1, Int.le_trans h.2 (Int.ofNat_le.mpr hle)⟩
  | post rc => exact ⟨h.1, Int.le_trans h.2 (Int.ofNat_le.mpr hle)⟩
  | _ => trivial

/-- The sends that are still promised find room. -/
structure RoomInv (s : SpaceSlot α) : Prop where
  fits : s.sender.pc.Fits s.txRing.freeCount
  answer : ∀ n, s.sender.answer = some n →
    0 ≤ n ∧ n ≤ (s.sender.sent : ℤ) + s.txRing.freeCount
  refused : s.sender.refused = false

variable {s t : SpaceSlot α}

/-- What the service and the others do: the sender is where it was, and the ring has at least
the room it had. -/
theorem RoomInv.grow (h : RoomInv s) (hsender : t.sender = s.sender)
    (hfree : s.txRing.freeCount ≤ t.txRing.freeCount) : RoomInv t where
  fits := by
    rw [hsender]
    exact h.fits.mono hfree
  answer n hn := by
    rw [hsender] at hn ⊢
    have hbound := h.answer n hn
    omega
  refused := by
    rw [hsender]
    exact h.refused

/-- The sender moves on without an answer or a send. -/
theorem RoomInv.move (h : RoomInv s) (hring : t.txRing = s.txRing)
    (hfits : t.sender.pc.Fits s.txRing.freeCount)
    (hanswer : t.sender.answer = s.sender.answer ∨ t.sender.answer = none)
    (hsent : t.sender.sent = s.sender.sent) (hrefused : t.sender.refused = s.sender.refused) :
    RoomInv t where
  fits := by
    rw [hring]
    exact hfits
  answer n hn := by
    rw [hring, hsent]
    rcases hanswer with hsame | hnone
    · exact h.answer n (hsame ▸ hn)
    · rw [hnone] at hn
      cases hn
  refused := hrefused.trans h.refused

/-- One of the two calls returns what it counted. -/
theorem RoomInv.answered (h : RoomInv s) (hring : t.txRing = s.txRing) {rc : ℤ}
    (hrc : 0 ≤ rc ∧ rc ≤ s.txRing.freeCount) (hsender : t.sender = (s.answered rc).sender) :
    RoomInv t where
  fits := by
    rw [hsender]
    trivial
  answer n hn := by
    rw [hsender] at hn ⊢
    obtain rfl := Option.some.inj hn
    rw [hring]
    exact ⟨hrc.1, by simpa [SpaceSlot.answered] using hrc.2⟩
  refused := by
    rw [hsender]
    exact h.refused

/-- The service only takes buffers from the ring. -/
theorem serviceStep_frame {conn : ℕ} {type : SockType} {a : SpaceServiceStep}
    (ht : s.serviceStep conn type a = some t) :
    t.sender = s.sender ∧ s.txRing.freeCount ≤ t.txRing.freeCount := by
  cases a with
  | drain n =>
      simp only [SpaceSlot.serviceStep] at ht
      split at ht
      next =>
          obtain rfl := Option.some.inj ht
          refine ⟨rfl, ?_⟩
          simp only [Ring.freeCount, Ring.items_dequeueBurst, List.length_drop]
          omega
      next => cases ht
  | takeCommand wspace =>
      simp only [SpaceSlot.serviceStep, SpaceSlot.txPoolEmpty] at ht
      split at ht
      next =>
          split at ht
          next =>
              split at ht
              · split at ht <;> obtain rfl := Option.some.inj ht <;> exact ⟨rfl, Nat.le_refl _⟩
              · obtain rfl := Option.some.inj ht
                exact ⟨rfl, Nat.le_refl _⟩
          next => cases ht
      next => cases ht
  | post =>
      simp only [SpaceSlot.serviceStep] at ht
      split at ht
      next => cases ht
      next => split at ht <;> obtain rfl := Option.some.inj ht <;> exact ⟨rfl, Nat.le_refl _⟩
  | notify wspace kept =>
      simp only [SpaceSlot.serviceStep] at ht
      split at ht
      next =>
          split at ht
          · obtain rfl := Option.some.inj ht
            exact ⟨rfl, Nat.le_refl _⟩
          · split at ht <;> obtain rfl := Option.some.inj ht <;> exact ⟨rfl, Nat.le_refl _⟩
      next => cases ht
  | mark =>
      simp only [SpaceSlot.serviceStep] at ht
      split at ht
      next => split at ht <;> obtain rfl := Option.some.inj ht <;> exact ⟨rfl, Nat.le_refl _⟩
      next => cases ht
  | _ =>
      simp only [SpaceSlot.serviceStep] at ht
      split at ht
      next =>
          obtain rfl := Option.some.inj ht
          exact ⟨rfl, Nat.le_refl _⟩
      next => cases ht

/-- The others touch neither the sender nor its ring. -/
theorem otherStep_frame {a : SpaceOtherStep} (ht : s.otherStep a = some t) :
    t.sender = s.sender ∧ t.txRing = s.txRing := by
  cases a with
  | take =>
      simp only [SpaceSlot.otherStep] at ht
      split at ht
      next => cases ht
      next =>
          obtain rfl := Option.some.inj ht
          exact ⟨rfl, rfl⟩
  | _ =>
      obtain rfl := Option.some.inj ht
      exact ⟨rfl, rfl⟩

/-- A send that was promised is not refused. -/
theorem RoomInv.not_promised (h : RoomInv s) (hfull : s.txRing.freeCount = 0) :
    s.sender.promised = false := by
  unfold SpaceSender.promised
  split
  next n hn =>
      have hbound := h.answer n hn
      rw [decide_eq_false_iff_not]
      omega
  next => rfl

/-- A send that the ring refuses. -/
theorem RoomInv.sendRefused (h : RoomInv s) {mbufs : List α} (hring : t.txRing = s.txRing)
    (hless : s.txRing.freeCount < mbufs.length)
    (hsender : t.sender = { s.sender with
      pc := .idle
      sent := s.sender.sent + mbufs.length
      refused := s.sender.refused || (decide (mbufs.length = 1) && s.sender.promised) }) :
    RoomInv t where
  fits := by
    rw [hsender]
    trivial
  answer n hn := by
    rw [hsender] at hn ⊢
    rw [hring]
    have hbound := h.answer n hn
    dsimp only
    omega
  refused := by
    rw [hsender]
    by_cases hone : mbufs.length = 1
    · rw [h.not_promised (by omega), Bool.and_false, Bool.or_false]
      exact h.refused
    · rw [decide_eq_false hone, Bool.false_and, Bool.or_false]
      exact h.refused

/-- A send that the ring takes: what it takes from the room it adds to the buffers sent. -/
theorem RoomInv.sendQueued (h : RoomInv s) {mbufs : List α} {length : BitVec 32}
    (hfree : t.txRing.freeCount + mbufs.length = s.txRing.freeCount)
    (hsender : t.sender = { s.sender with
      pc := .debit length
      sent := s.sender.sent + mbufs.length }) : RoomInv t where
  fits := by
    rw [hsender]
    trivial
  answer n hn := by
    rw [hsender] at hn ⊢
    have hbound := h.answer n hn
    dsimp only
    omega
  refused := by
    rw [hsender]
    exact h.refused

/-- An access of the sender. -/
theorem RoomInv.clientStep (h : RoomInv s) {conn : ℕ} {a : SpaceClientStep α}
    (hok : spaceOk conn s (.client a)) (ht : s.clientStep conn a = some t) : RoomInv t := by
  have hfits := h.fits
  cases a with
  | getSocketTxSpace =>
      simp only [SpaceSlot.clientStep] at ht
      split at ht
      next =>
          obtain rfl := Option.some.inj ht
          exact h.move rfl (Nat.le_refl _) (.inr rfl) rfl rfl
      next => cases ht
  | readBufs =>
      simp only [SpaceSlot.clientStep] at ht
      split at ht
      next ringSpace hpc =>
          obtain rfl := Option.some.inj ht
          rw [hpc] at hfits
          exact h.move rfl (Nat.le_trans (limitedByBufs_le _ _) hfits) (.inl rfl) rfl rfl
      next => cases ht
  | getSocketTxSpaceOwnBuffer =>
      simp only [SpaceSlot.clientStep] at ht
      split at ht
      next =>
          obtain rfl := Option.some.inj ht
          exact h.move rfl (Nat.le_refl _) (.inr rfl) rfl rfl
      next => cases ht
  | readCredit =>
      simp only [SpaceSlot.clientStep] at ht
      split at ht
      next call rc hpc =>
          rw [hpc] at hfits
          have hrc : 0 ≤ limitedByCredit rc s.txSpace ∧
              limitedByCredit rc s.txSpace ≤ s.txRing.freeCount :=
            ⟨limitedByCredit_nonneg hok,
              Int.le_trans (limitedByCredit_le rc s.txSpace) (Int.ofNat_le.mpr hfits)⟩
          split at ht
          next =>
              obtain rfl := Option.some.inj ht
              exact h.move rfl hrc (.inl rfl) rfl rfl
          next =>
              obtain rfl := Option.some.inj ht
              exact h.answered rfl hrc rfl
      next => cases ht
  | clear =>
      simp only [SpaceSlot.clientStep] at ht
      split at ht
      next rc hpc =>
          obtain rfl := Option.some.inj ht
          rw [hpc] at hfits
          exact h.move rfl hfits (.inl rfl) rfl rfl
      next => cases ht
  | alloc =>
      simp only [SpaceSlot.clientStep] at ht
      split at ht
      next rc hpc =>
          rw [hpc] at hfits
          split at ht
          next =>
              obtain rfl := Option.some.inj ht
              exact h.answered rfl hfits rfl
          next =>
              obtain rfl := Option.some.inj ht
              exact h.move rfl hfits (.inl rfl) rfl rfl
      next => cases ht
  | post =>
      simp only [SpaceSlot.clientStep] at ht
      split at ht
      next rc hpc =>
          rw [hpc] at hfits
          split at ht <;> obtain rfl := Option.some.inj ht <;> exact h.answered rfl hfits rfl
      next => cases ht
  | send mbufs length =>
      simp only [SpaceSlot.clientStep] at ht
      split at ht
      next =>
          obtain rfl := Option.some.inj ht
          exact h.move rfl trivial (.inl rfl) rfl rfl
      next => cases ht
  | sendEnqueue =>
      simp only [SpaceSlot.clientStep] at ht
      split at ht
      next mbufs length hpc =>
          split at ht
          next hfull =>
              obtain rfl := Option.some.inj ht
              exact h.sendRefused rfl (Ring.lt_of_nobufs hfull) rfl
          next hcode hqueued =>
              obtain rfl := Option.some.inj ht
              exact h.sendQueued (Ring.freeCount_of_queued hcode hqueued) rfl
      next => cases ht
  | sendDebit =>
      simp only [SpaceSlot.clientStep] at ht
      split at ht
      next =>
          obtain rfl := Option.some.inj ht
          exact h.move rfl trivial (.inl rfl) rfl rfl
      next => cases ht
  | select =>
      simp only [SpaceSlot.clientStep] at ht
      split at ht
      next =>
          obtain rfl := Option.some.inj ht
          exact h.move rfl trivial (.inl rfl) rfl rfl
      next => cases ht
  | selectTake =>
      simp only [SpaceSlot.clientStep] at ht
      split at ht
      next =>
          split at ht <;> obtain rfl := Option.some.inj ht <;>
            exact h.move rfl trivial (.inl rfl) rfl rfl
      next => cases ht

end Room

/-! ## The wake-up -/

section Wake

variable {α : Type} {conn : ℕ}

/-- From the moment the flag is cleared for an answer 0, the flag has an entry behind it; and
once the answer is given a wake-up is pending. -/
structure WakeUpInv (conn : ℕ) (s : SpaceSlot α) : Prop where
  flag : s.sender.Expecting → s.writeReadyToApp = true →
    s.service ≠ .idle ∨ writableEntry conn ∈ s.ready.items
  pending : s.sender.Waits → s.WakePending conn

variable {s t : SpaceSlot α}

/-- A step by which a client that did not wait before does not wait either. -/
theorem WakeUpInv.keep (h : WakeUpInv conn s) (hsender : t.sender.Expecting → s.sender.Expecting)
    (hwaits : t.sender.Waits → s.sender.Waits)
    (hflag : t.writeReadyToApp = true → s.writeReadyToApp = true)
    (hcommand : Command.txPoolEmpty conn ∈ s.commandRing.items →
      Command.txPoolEmpty conn ∈ t.commandRing.items)
    (hlisted : t.listed = s.listed) (hservice : t.service = s.service)
    (hready : t.sender.Expecting → writableEntry conn ∈ s.ready.items →
      writableEntry conn ∈ t.ready.items) : WakeUpInv conn t where
  flag hexpect hset := by
    rw [hservice]
    exact (h.flag (hsender hexpect) (hflag hset)).imp id (hready hexpect)
  pending hwait := by
    unfold SpaceSlot.WakePending
    rw [hlisted, hservice]
    exact (h.pending (hwaits hwait)).imp hcommand
      (Or.imp id (Or.imp id (hready (.inr hwait))))

/-- A step of the sender after which it does not wait. -/
theorem WakeUpInv.of_not_expecting (hsender : ¬ t.sender.Expecting) : WakeUpInv conn t where
  flag hexpect := absurd hexpect hsender
  pending hwait := absurd (.inr hwait) hsender

/-- After a post that did not fail, or that an earlier entry makes up for, the entry is there. -/
theorem WakeUpInv.of_entry (hready : t.sender.Expecting → writableEntry conn ∈ t.ready.items) :
    WakeUpInv conn t where
  flag hexpect _ := .inr (hready hexpect)
  pending hwait := .inr (.inr (.inr (hready (.inr hwait))))

/-- The service is about to post. -/
theorem WakeUpInv.of_posting (hservice : t.service ≠ .idle) : WakeUpInv conn t where
  flag _ _ := .inl hservice
  pending _ := .inr (.inr (.inl hservice))

/-- The call returns `rc` and no wake-up is lost. -/
theorem WakeUpInv.answered {rc : ℤ} (h : WakeUpInv conn s)
    (hexpect : rc = 0 → s.sender.Expecting) (hpending : rc = 0 → t.WakePending conn)
    (hsender : t.sender = (s.answered rc).sender) (hflag : t.writeReadyToApp = s.writeReadyToApp)
    (hservice : t.service = s.service) (hready : t.ready = s.ready) : WakeUpInv conn t where
  flag ht hset := by
    rw [hservice, hready]
    rw [hflag] at hset
    refine h.flag (hexpect ?_) hset
    rw [hsender] at ht
    rcases ht with hpc | hwait
    · cases hpc
    · exact Option.some.inj hwait.1
  pending hwait := by
    rw [hsender] at hwait
    exact hpending (Option.some.inj hwait.1)

theorem awaits_alloc_iff (rc : ℤ) : (SpaceClientPc.alloc rc : SpaceClientPc α).awaits = true ↔
    rc = 0 := decide_eq_true_iff

theorem awaits_post_iff (rc : ℤ) : (SpaceClientPc.post rc : SpaceClientPc α).awaits = true ↔
    rc = 0 := decide_eq_true_iff

/-- The sender moves to where it does not await an answer. -/
theorem SpaceSender.Expecting.of_goto {pc : SpaceClientPc α} (hpc : pc.awaits = false)
    (h : (s.goto pc).sender.Expecting) : s.sender.Expecting := by
  rcases h with hawaits | hwait
  · rw [show (s.goto pc).sender.pc.awaits = false from hpc] at hawaits
    cases hawaits
  · exact .inr hwait

/-- A move of the sender that touches nothing else. -/
theorem WakeUpInv.goto (h : WakeUpInv conn s) {pc : SpaceClientPc α} (hpc : pc.awaits = false) :
    WakeUpInv conn (s.goto pc) :=
  h.keep (.of_goto hpc) id id id rfl rfl fun _ => id

/-- A send that was tried ends the wait. -/
theorem SpaceSender.Waits.of_sent {c : SpaceSender α} {pc : SpaceClientPc α} {n : ℕ}
    {refused : Bool} (hpc : pc.awaits = false)
    (h : SpaceSender.Expecting { c with pc, sent := c.sent + n, refused }) : c.Waits := by
  rcases h with hawaits | hwait
  · rw [hpc] at hawaits
    cases hawaits
  · exact ⟨hwait.1, Nat.eq_zero_of_add_eq_zero_right hwait.2.1, hwait.2.2⟩

/-- A select that does not take the entry leaves it in the ring. -/
theorem WakeUpInv.selectTake (h : WakeUpInv conn s) (readyCount : ℕ) :
    WakeUpInv conn { s with
      ready := (s.ready.dequeueBurst readyCount).2
      sender := { s.sender with
        pc := .idle
        woken := s.sender.woken ||
          decide (writableEntry conn ∈ (s.ready.dequeueBurst readyCount).1) } } := by
  have hasleep (hexpect : SpaceSender.Expecting (α := α) { s.sender with
      pc := .idle
      woken := s.sender.woken ||
        decide (writableEntry conn ∈ (s.ready.dequeueBurst readyCount).1) }) :
      s.sender.Waits ∧ writableEntry conn ∉ (s.ready.dequeueBurst readyCount).1 := by
    rcases hexpect with hidle | ⟨hanswer, hsent, hwoken⟩
    · cases hidle
    · rw [Bool.or_eq_false_iff, decide_eq_false_iff_not] at hwoken
      exact ⟨⟨hanswer, hsent, hwoken.1⟩, hwoken.2⟩
  refine h.keep (fun hexpect => .inr (hasleep hexpect).1) (fun hwait => (hasleep (.inr hwait)).1)
    id id rfl rfl fun hexpect hready => ?_
  exact (Ring.mem_dequeueBurst readyCount hready).resolve_left (hasleep hexpect).2

/-- An access of the sender. -/
theorem WakeUpInv.clientStep (h : WakeUpInv conn s) {a : SpaceClientStep α}
    (hok : spaceOk conn s (.client a)) (ht : s.clientStep conn a = some t) : WakeUpInv conn t := by
  cases a with
  | getSocketTxSpace =>
      simp only [SpaceSlot.clientStep] at ht
      split at ht
      next =>
          obtain rfl := Option.some.inj ht
          exact .of_not_expecting (by rintro (hpc | ⟨hnone, -⟩) <;> contradiction)
      next => cases ht
  | readBufs =>
      simp only [SpaceSlot.clientStep] at ht
      split at ht
      next =>
          obtain rfl := Option.some.inj ht
          exact h.goto rfl
      next => cases ht
  | getSocketTxSpaceOwnBuffer =>
      simp only [SpaceSlot.clientStep] at ht
      split at ht
      next =>
          obtain rfl := Option.some.inj ht
          exact .of_not_expecting (by rintro (hpc | ⟨hnone, -⟩) <;> contradiction)
      next => cases ht
  | readCredit =>
      simp only [SpaceSlot.clientStep] at ht
      split at ht
      next call rc hpc =>
          split at ht
          next =>
              obtain rfl := Option.some.inj ht
              exact h.goto rfl
          next hquiet =>
              obtain rfl := Option.some.inj ht
              have hne : limitedByCredit rc s.txSpace ≠ 0 := by
                intro hzero
                rw [hzero] at hquiet
                exact hquiet call.notifies_zero
              refine .of_not_expecting ?_
              rintro (hidle | hwait)
              · cases hidle
              · exact hne (Option.some.inj hwait.1)
      next => cases ht
  | clear =>
      simp only [SpaceSlot.clientStep] at ht
      split at ht
      next rc hpc =>
          obtain rfl := Option.some.inj ht
          exact ⟨fun _ hset => Bool.noConfusion hset, h.pending⟩
      next => cases ht
  | alloc =>
      simp only [SpaceSlot.clientStep] at ht
      split at ht
      next rc hpc =>
          have hawaits : rc = 0 → s.sender.pc.awaits = true := by
            rw [hpc]
            exact (awaits_alloc_iff rc).mpr
          split at ht
          next hnone =>
              obtain rfl := Option.some.inj ht
              refine h.answered (fun hzero => .inl (hawaits hzero)) (fun hzero => ?_)
                rfl rfl rfl rfl
              exact (hok (hawaits hzero)).resolve_left (Nat.not_lt.mpr (Nat.le_of_eq hnone))
          next =>
              obtain rfl := Option.some.inj ht
              refine h.keep ?_ id id id rfl rfl fun _ => id
              rintro (hpost | hwait)
              · exact .inl (hawaits ((awaits_post_iff rc).mp hpost))
              · exact .inr hwait
      next => cases ht
  | post =>
      simp only [SpaceSlot.clientStep] at ht
      split at ht
      next rc hpc =>
          have hawaits : rc = 0 → s.sender.pc.awaits = true := by
            rw [hpc]
            exact (awaits_post_iff rc).mpr
          split at ht
          next hfull =>
              obtain rfl := Option.some.inj ht
              refine h.answered (fun hzero => .inl (hawaits hzero)) (fun hzero => ?_)
                rfl rfl rfl rfl
              exact (hok (hawaits hzero)).resolve_left
                (Nat.not_lt.mpr (Nat.le_of_eq (Ring.freeCount_of_nobufs hfull)))
          next hcode hqueued =>
              obtain rfl := Option.some.inj ht
              refine h.answered (fun hzero => .inl (hawaits hzero)) (fun _ => .inl ?_)
                rfl rfl rfl rfl
              dsimp only
              rw [Ring.items_of_queued hcode hqueued]
              exact List.mem_append_right _ (List.mem_singleton_self _)
      next => cases ht
  | send mbufs length =>
      simp only [SpaceSlot.clientStep] at ht
      split at ht
      next =>
          obtain rfl := Option.some.inj ht
          exact ⟨fun _ hset => Bool.noConfusion hset, h.pending⟩
      next => cases ht
  | sendEnqueue =>
      simp only [SpaceSlot.clientStep] at ht
      split at ht
      next mbufs length hpc =>
          split at ht <;> obtain rfl := Option.some.inj ht
          · exact h.keep (fun hexpect => .inr (.of_sent rfl hexpect))
              (fun hwait => .of_sent rfl (.inr hwait)) id id rfl rfl fun _ => id
          · exact h.keep (fun hexpect => .inr (.of_sent rfl hexpect))
              (fun hwait => .of_sent rfl (.inr hwait)) id id rfl rfl fun _ => id
      next => cases ht
  | sendDebit =>
      simp only [SpaceSlot.clientStep] at ht
      split at ht
      next =>
          obtain rfl := Option.some.inj ht
          exact h.keep (.of_goto rfl) id id id rfl rfl fun _ => id
      next => cases ht
  | select =>
      simp only [SpaceSlot.clientStep] at ht
      split at ht
      next =>
          obtain rfl := Option.some.inj ht
          exact h.goto rfl
      next => cases ht
  | selectTake =>
      simp only [SpaceSlot.clientStep] at ht
      split at ht
      next readyCount hpc =>
          split at ht
          next =>
              obtain rfl := Option.some.inj ht
              exact h.goto rfl
          next =>
              obtain rfl := Option.some.inj ht
              exact h.selectTake readyCount
      next => cases ht

/-- TX_POOL_EMPTY leaves the socket in the list. -/
theorem listed_txPoolEmpty (s : SpaceSlot α) (type : SockType) (wspace : BitVec 32) :
    (s.txPoolEmpty type wspace).listed = true := by
  unfold SpaceSlot.txPoolEmpty
  split
  next hset => exact hset
  next => rfl

/-- `process_commands` takes a command: a TX_POOL_EMPTY of the connection puts its socket in the
list, and what is behind another command stays in the ring. -/
theorem WakeUpInv.takeCommand (h : WakeUpInv conn s) {type : SockType} {wspace : BitVec 32}
    (ht : s.serviceStep conn type (.takeCommand wspace) = some t) : WakeUpInv conn t := by
  simp only [SpaceSlot.serviceStep] at ht
  split at ht
  next hidle =>
      split at ht
      next cmd commandRing hqueue =>
          rw [Ring.dequeue_eq_some_iff] at hqueue
          split at ht
          next hcmd =>
              obtain rfl := Option.some.inj ht
              refine ⟨?_, fun _ => .inr (.inl (listed_txPoolEmpty _ _ _))⟩
              unfold SpaceSlot.txPoolEmpty
              split <;> exact h.flag
          next hcmd =>
              obtain rfl := Option.some.inj ht
              refine h.keep id id id (fun hmem => ?_) rfl rfl fun _ => id
              rw [hqueue] at hmem
              exact (List.mem_cons.mp hmem).resolve_left fun heq => hcmd heq.symm
      next => cases ht
  next => cases ht

/-- An access of the service. -/
theorem WakeUpInv.serviceStep (h : WakeUpInv conn s) {type : SockType} {a : SpaceServiceStep}
    (hok : spaceOk conn s (.service a)) (ht : s.serviceStep conn type a = some t) :
    WakeUpInv conn t := by
  cases a with
  | takeCommand wspace => exact h.takeCommand ht
  | mark =>
      simp only [SpaceSlot.serviceStep] at ht
      split at ht
      next =>
          split at ht
          · obtain rfl := Option.some.inj ht
            exact h
          · obtain rfl := Option.some.inj ht
            exact .of_posting nofun
      next => cases ht
  | notify wspace kept =>
      simp only [SpaceSlot.serviceStep] at ht
      split at ht
      next hlist =>
          split at ht
          next =>
              obtain rfl := Option.some.inj ht
              exact h.keep id id id id rfl rfl fun _ => id
          next =>
              split at ht
              next hset =>
                  obtain rfl := Option.some.inj ht
                  exact .of_entry fun hexpect =>
                    (h.flag hexpect hset).resolve_left (not_not_intro hlist.1)
              next =>
                  obtain rfl := Option.some.inj ht
                  exact .of_posting nofun
      next => cases ht
  | post =>
      simp only [SpaceSlot.serviceStep] at ht
      split at ht
      next => cases ht
      next fromList hpost =>
          split at ht
          next hfull =>
              obtain rfl := Option.some.inj ht
              exact .of_entry fun hexpect => (hok hexpect).resolve_left
                (Nat.not_lt.mpr (Nat.le_of_eq (Ring.freeCount_of_nobufs hfull)))
          next hcode hqueued =>
              obtain rfl := Option.some.inj ht
              refine .of_entry fun _ => ?_
              dsimp only
              rw [Ring.items_of_queued hcode hqueued]
              exact List.mem_append_right _ (List.mem_singleton_self _)
  | _ =>
      simp only [SpaceSlot.serviceStep] at ht
      split at ht
      next =>
          obtain rfl := Option.some.inj ht
          exact h.keep id id id id rfl rfl fun _ => id
      next => cases ht

/-- A step of anybody else. -/
theorem WakeUpInv.otherStep (h : WakeUpInv conn s) {a : SpaceOtherStep}
    (ht : s.otherStep a = some t) : WakeUpInv conn t := by
  cases a with
  | take =>
      simp only [SpaceSlot.otherStep] at ht
      split at ht
      next => cases ht
      next =>
          obtain rfl := Option.some.inj ht
          exact h.keep id id id id rfl rfl fun _ => id
  | post cmd =>
      obtain rfl := Option.some.inj ht
      exact h.keep id id id Ring.mem_enqueueBulk rfl rfl fun _ => id
  | ready e =>
      obtain rfl := Option.some.inj ht
      exact h.keep id id id id rfl rfl fun _ => Ring.mem_enqueueBulk
  | _ =>
      obtain rfl := Option.some.inj ht
      exact h.keep id id id id rfl rfl fun _ => id

end Wake

section Run

variable {α : Type} {conn : ℕ} {type : SockType} {txRing : Ring α dataRingCapacity}
  {ready : Ring ReadyEntry readyCapacity} {commandRing : Ring Command commandRingCapacity}
  {freeCommands bufs : ℕ} {txSpace : BitVec 32} {selected : Bool}

/-- Nothing was asked yet. -/
theorem spaceInv_init (txRing : Ring α dataRingCapacity) :
    RoomInv (spaceMachine conn type txRing ready commandRing freeCommands bufs txSpace
        selected).init ∧
      WakeUpInv conn (spaceMachine conn type txRing ready commandRing freeCommands bufs txSpace
        selected).init := by
  refine ⟨⟨trivial, nofun, rfl⟩, .of_not_expecting ?_⟩
  rintro (hpc | ⟨hnone, -⟩) <;> contradiction

/-- **Step lemma.** -/
theorem spaceInv_step {s t : SpaceSlot α} {a : SpaceStep α} (hroom : RoomInv s)
    (hwake : WakeUpInv conn s) (hok : spaceOk conn s a)
    (ht : (spaceMachine conn type txRing ready commandRing freeCommands bufs txSpace
      selected).step s a = some t) : RoomInv t ∧ WakeUpInv conn t := by
  cases a with
  | client a => exact ⟨hroom.clientStep hok ht, hwake.clientStep hok ht⟩
  | service a =>
      obtain ⟨hsender, hfree⟩ := serviceStep_frame ht
      exact ⟨hroom.grow hsender hfree, hwake.serviceStep hok ht⟩
  | other a =>
      obtain ⟨hsender, hring⟩ := otherStep_frame ht
      exact ⟨hroom.grow hsender (Nat.le_of_eq (congrArg Ring.freeCount hring.symm)),
        hwake.otherStep ht⟩

/-- **The answer is a usable promise.**  In every run in which the credit is above -1448 at every
reading, an answer 0 finds a command buffer and room in the command ring unless a wake-up is
pending, and the ready ring takes the entry of a client that waits: no answer is negative, none of
the sends it promised is refused whatever the service does meanwhile, and after an answer 0 a
wake-up is pending until the client sends or takes it. -/
theorem tx_space_promise_kept {s : SpaceSlot α}
    (hreach : (spaceMachine conn type txRing ready commandRing freeCommands bufs txSpace
      selected).ReachableWhere (spaceOk conn) s) : PromiseKept conn s := by
  have hinv : RoomInv s ∧ WakeUpInv conn s := by
    refine @Machine.invariant_of_step _ _ _ (spaceOk conn)
      (fun s => RoomInv s ∧ WakeUpInv conn s) (spaceInv_init txRing) ?_ s hreach
    intro s a t h hok ht
    exact spaceInv_step h.1 h.2 hok ht
  exact ⟨fun n hn => (hinv.1.answer n hn).1, hinv.1.refused, hinv.2.pending⟩

end Run

instance (s : SpaceSlot Unit) (conn : ℕ) : Decidable (s.WakePending conn) := by
  unfold SpaceSlot.WakePending
  infer_instance

instance (c : SpaceSender Unit) : Decidable c.Expecting := by
  unfold SpaceSender.Expecting SpaceSender.Waits
  infer_instance

instance (conn : ℕ) (s : SpaceSlot Unit) (a : SpaceStep Unit) : Decidable (spaceOk conn s a) := by
  unfold spaceOk
  split <;> infer_instance

/-- A connection of a selector, all rings empty. -/
def freshSpace (freeCommands : ℕ) : Machine (SpaceSlot Unit) (SpaceStep Unit) :=
  spaceMachine 7 .stream .empty .empty .empty freeCommands 100 0 true

/-- The connection gets a credit of one buffer; the client asks, sends, asks again and is told 0;
the service takes the buffer and answers the TX_POOL_EMPTY. -/
def askSendAsk : List (SpaceStep Unit) :=
  [.service (.setTxSpace 1448), .client .getSocketTxSpace, .client .readBufs,
    .client .readCredit, .client .clear, .client .alloc, .client .post,
    .client (.send [()] 1448), .client .sendEnqueue, .client .sendDebit,
    .client .getSocketTxSpaceOwnBuffer, .client .readCredit, .client .clear, .client .alloc,
    .client .post, .service (.drain 1), .service (.takeCommand 0), .service (.takeCommand 0),
    .service (.notify 0 false), .service .post]

theorem tx_space_promise_kept_one :
    ∃ s, (freshSpace 2).ReachableWhere (spaceOk 7) s ∧ s.sender.answer = some 0 ∧
      PromiseKept 7 s := by
  have hrun : (((freshSpace 2).restrict (spaceOk 7)).run askSendAsk).map
      (fun s => s.sender.answer) = some (some 0) := by
    decide +kernel
  obtain ⟨s, hs, hanswer⟩ := Option.map_eq_some_iff.mp hrun
  have hreach := Machine.reachableWhere_of_run _ hs
  exact ⟨s, hreach, hanswer, tx_space_promise_kept hreach⟩

/-- A credit of two buffers and three sends. -/
def sendThreeOfTwo : List (SpaceStep Unit) :=
  [.service (.setTxSpace 2896),
    .client (.send [()] 1448), .client .sendEnqueue, .client .sendDebit,
    .client (.send [()] 1448), .client .sendEnqueue, .client .sendDebit,
    .client (.send [()] 1448), .client .sendEnqueue, .client .sendDebit]

/-- Then the client asks with the pool. -/
def sendThreeAsk : List (SpaceStep Unit) :=
  sendThreeOfTwo ++ [.client .getSocketTxSpace, .client .readBufs, .client .readCredit,
    .client .clear, .client .alloc, .client .post]

def sendThreeAskOwnBuffer : List (SpaceStep Unit) :=
  sendThreeOfTwo ++ [.client .getSocketTxSpaceOwnBuffer, .client .readCredit]

/-- A client without credit asks, and there is no command buffer. -/
def askWithoutCommand : List (SpaceStep Unit) :=
  [.client .getSocketTxSpaceOwnBuffer, .client .readCredit, .client .clear, .client .alloc]

/-- Both calls answer -1 after a third buffer was sent on a credit of two, and the second one asks
for no wake-up; and without a command buffer it answers 0 with nobody asked. -/
theorem tx_space_promise_broken :
    (∃ s, (freshSpace 1).run sendThreeAsk = some s ∧ s.sender.answer = some (-1) ∧
        ¬ PromiseKept 7 s) ∧
      (∃ s, (freshSpace 1).run sendThreeAskOwnBuffer = some s ∧ s.sender.answer = some (-1) ∧
        ¬ s.WakePending 7 ∧ ¬ PromiseKept 7 s) ∧
      (∃ s, (freshSpace 0).run askWithoutCommand = some s ∧ s.sender.Waits ∧
        ¬ s.WakePending 7 ∧ ¬ PromiseKept 7 s) := by
  have hshared : ((freshSpace 1).run sendThreeAsk).map (fun s => s.sender.answer) =
      some (some (-1)) := by
    decide +kernel
  have hown : ((freshSpace 1).run sendThreeAskOwnBuffer).map
      (fun s => (s.sender.answer, decide (s.WakePending 7))) = some (some (-1), false) := by
    decide +kernel
  have hnobody : ((freshSpace 0).run askWithoutCommand).map
      (fun s => (s.sender.answer, s.sender.sent, s.sender.woken, decide (s.WakePending 7))) =
        some (some 0, 0, false, false) := by
    decide +kernel
  refine ⟨?_, ?_, ?_⟩
  · obtain ⟨s, hs, hanswer⟩ := Option.map_eq_some_iff.mp hshared
    exact ⟨s, hs, hanswer, fun hkept => absurd (hkept.nonneg _ hanswer) (by decide)⟩
  · obtain ⟨s, hs, hview⟩ := Option.map_eq_some_iff.mp hown
    rw [Prod.mk.injEq, decide_eq_false_iff_not] at hview
    exact ⟨s, hs, hview.1, hview.2, fun hkept => absurd (hkept.nonneg _ hview.1) (by decide)⟩
  · obtain ⟨s, hs, hview⟩ := Option.map_eq_some_iff.mp hnobody
    simp only [Prod.mk.injEq, decide_eq_false_iff_not] at hview
    obtain ⟨hanswer, hsent, hwoken, hnone⟩ := hview
    exact ⟨s, hs, ⟨hanswer, hsent, hwoken⟩, hnone,
      fun hkept => hnone (hkept.wakes ⟨hanswer, hsent, hwoken⟩)⟩

end IpAugenblick
