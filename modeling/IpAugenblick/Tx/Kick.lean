/-
# A successful kick reaches the service

A kick that finds `write_done_from_app` set relies on the TX_KICK of an earlier one.  That
command is in the ring, or the service has just taken it and is about to clear the flag and
count the ring.  A kick that sets the flag and then fails, for want of a command buffer or of
room in the command ring, leaves the flag set with no command behind it.
-/

import IpAugenblick.Tx.Slot

namespace IpAugenblick

open Lib

section Invariant

variable {α : Type} (conn : ℕ)

/-- The service has taken a TX_KICK and not counted the ring yet. -/
def TxSlot.Serving (s : TxSlot α) : Prop := s.service = .count ∧ s.command = true

def TxSlot.OnItsWay (s : TxSlot α) : Prop :=
  Command.txKick conn ∈ s.commandRing.items ∨ s.Serving

/-- The flag and the kicks that returned 0 have a TX_KICK behind them. -/
structure KickInv (s : TxSlot α) : Prop where
  flag : s.writeDoneFromApp = true → s.OnItsWay conn ∨ s.client = .kick ∨ s.client = .kickPost
  kicked : s.kicked = true → s.OnItsWay conn

variable {conn} {s t : TxSlot α}

/-- A step that sets no flag and takes no command away. -/
theorem KickInv.keep (h : KickInv conn s) (hflag : t.writeDoneFromApp = s.writeDoneFromApp)
    (hkicked : t.kicked = s.kicked) (hway : s.OnItsWay conn → t.OnItsWay conn)
    (hclient : s.client = .kick ∨ s.client = .kickPost → t.client = s.client) :
    KickInv conn t where
  flag := by
    rw [hflag]
    intro hset
    rcases h.flag hset with hw | hc
    · exact .inl (hway hw)
    · rw [hclient hc]
      exact .inr hc
  kicked := by
    rw [hkicked]
    exact fun hk => hway (h.kicked hk)

/-- `ipaugenblick_tx_buf_count` settles everything. -/
theorem kickInv_of_clear (hflag : t.writeDoneFromApp = false) (hkicked : t.kicked = false) :
    KickInv conn t where
  flag hset := by
    rw [hflag] at hset
    cases hset
  kicked hset := by
    rw [hkicked] at hset
    cases hset

/-- A kick returns 0 with a TX_KICK on its way. -/
theorem KickInv.kickReturn (hway : s.OnItsWay conn) : KickInv conn s.kickReturn where
  flag _ := .inl hway
  kicked _ := hway

/-- An access of `user_on_transmission_opportunity`. -/
theorem KickInv.serviceStep (h : KickInv conn s) {type : SockType} {o : TxAnswer}
    (ht : s.serviceStep conn type o = some t) : KickInv conn t := by
  -- past the count, a command on its way is in the ring
  have hmove : ∀ {u : TxSlot α}, s.service ≠ .count → u.commandRing = s.commandRing →
      s.OnItsWay conn → u.OnItsWay conn := by
    rintro u hpc hring (hmem | hserving)
    · rw [← hring] at hmem
      exact .inl hmem
    · exact absurd hserving.1 hpc
  unfold TxSlot.serviceStep at ht
  split at ht
  next => cases ht
  next hpc =>
      dsimp only at ht
      split at ht
      · obtain rfl := Option.some.inj ht
        exact kickInv_of_clear rfl rfl
      · split at ht <;> obtain rfl := Option.some.inj ht <;> exact kickInv_of_clear rfl rfl
  next hpc =>
      have hne : s.service ≠ .count := by rw [hpc]; nofun
      split at ht <;> obtain rfl := Option.some.inj ht <;>
        exact h.keep rfl rfl (hmove hne rfl) fun _ => rfl
  next => obtain rfl := Option.some.inj ht; exact kickInv_of_clear rfl rfl
  next ringEntries hpc =>
      have hne : s.service ≠ .count := by rw [hpc]; nofun
      obtain rfl := Option.some.inj ht
      exact h.keep rfl rfl (hmove hne rfl) fun _ => rfl
  next hpc =>
      have hne : s.service ≠ .count := by rw [hpc]; nofun
      split at ht <;> obtain rfl := Option.some.inj ht <;>
        exact h.keep rfl rfl (hmove hne rfl) fun _ => rfl
  next hpc =>
      have hne : s.service ≠ .count := by rw [hpc]; nofun
      split at ht <;> obtain rfl := Option.some.inj ht <;>
        exact h.keep rfl rfl (hmove hne rfl) fun _ => rfl
  next hpc =>
      have hne : s.service ≠ .count := by rw [hpc]; nofun
      obtain rfl := Option.some.inj ht
      exact h.keep rfl rfl (hmove hne rfl) fun _ => rfl

end Invariant

section Run

variable {α : Type} {conn : ℕ} {type : SockType} {txRing : Ring α dataRingCapacity}
  {ready : Ring ReadyEntry readyCapacity} {commandRing : Ring Command commandRingCapacity}
  {freeCommands : ℕ}

/-- The guard of the runs in which a kick that sets the flag gets its command through: it finds
a command buffer and room in the command ring. -/
def kickOk (s : TxSlot α) : TxSlotStep α → Prop
  | .kickAlloc => s.freeCommands ≠ 0
  | .kickPost => 0 < s.commandRing.freeCount
  | _ => True

/-- **Step lemma.** -/
theorem kickInv_step {s t : TxSlot α} {a : TxSlotStep α} (h : KickInv conn s) (hok : kickOk s a)
    (ht : (txSlotMachine conn type txRing ready commandRing freeCommands).step s a = some t) :
    KickInv conn t := by
  have hidle : ∀ {pc}, s.client = pc → pc ≠ .kick → pc ≠ .kickPost →
      ¬ (s.client = .kick ∨ s.client = .kickPost) := by
    rintro pc rfl hkick hpost (hc | hc)
    · exact hkick hc
    · exact hpost hc
  cases a with
  | send mbufs =>
      simp only [txSlotMachine] at ht
      split at ht
      next hpc =>
          obtain rfl := Option.some.inj ht
          exact h.keep rfl rfl id fun hc => absurd hc (hidle hpc nofun nofun)
      next => cases ht
  | sendEnqueue =>
      simp only [txSlotMachine] at ht
      split at ht
      next mbufs hpc =>
          split at ht <;> obtain rfl := Option.some.inj ht <;>
            exact h.keep rfl rfl id fun hc => absurd hc (hidle hpc nofun nofun)
      next => cases ht
  | kick =>
      simp only [txSlotMachine] at ht
      split at ht
      next hpc =>
          split at ht
          next hset =>
              obtain rfl := Option.some.inj ht
              have hway := (h.flag hset).resolve_right (hidle hpc nofun nofun)
              exact KickInv.kickReturn hway
          next =>
              obtain rfl := Option.some.inj ht
              exact ⟨fun _ => .inr (.inl rfl), h.kicked⟩
      next => cases ht
  | kickAlloc =>
      simp only [txSlotMachine] at ht
      split at ht
      next =>
          split at ht
          next hnone => exact absurd hnone hok
          next =>
              obtain rfl := Option.some.inj ht
              exact ⟨fun _ => .inr (.inr rfl), h.kicked⟩
      next => cases ht
  | kickPost =>
      simp only [txSlotMachine] at ht
      split at ht
      next =>
          split at ht
          next ring hfull => exact absurd (Ring.freeCount_of_nobufs hfull) (Nat.ne_of_gt hok)
          next code ring hcode hqueued =>
              obtain rfl := Option.some.inj ht
              have hitems := Ring.items_of_queued hcode hqueued
              have hway : Command.txKick conn ∈ ring.items := by
                rw [hitems]
                exact List.mem_append_right _ (List.mem_singleton_self _)
              exact ⟨fun _ => .inl (.inl hway), fun _ => .inl hway⟩
      next => cases ht
  | select =>
      simp only [txSlotMachine] at ht
      split at ht
      next hpc =>
          obtain rfl := Option.some.inj ht
          exact h.keep rfl rfl id fun hc => absurd hc (hidle hpc nofun nofun)
      next => cases ht
  | selectTake =>
      simp only [txSlotMachine] at ht
      split at ht
      next readyCount hpc =>
          split at ht <;> obtain rfl := Option.some.inj ht <;>
            exact h.keep rfl rfl id fun hc => absurd hc (hidle hpc nofun nofun)
      next => cases ht
  | otherTake =>
      simp only [txSlotMachine] at ht
      split at ht
      next => cases ht
      next =>
          obtain rfl := Option.some.inj ht
          exact h.keep rfl rfl id fun _ => rfl
  | otherPost cmd =>
      simp only [txSlotMachine] at ht
      split at ht
      next => cases ht
      next =>
          obtain rfl := Option.some.inj ht
          exact h.keep rfl rfl (fun hw => hw.imp_left Ring.mem_enqueueBulk) fun _ => rfl
  | otherFree =>
      simp only [txSlotMachine] at ht
      obtain rfl := Option.some.inj ht
      exact h.keep rfl rfl id fun _ => rfl
  | otherReady e =>
      simp only [txSlotMachine] at ht
      split at ht
      next => cases ht
      next =>
          obtain rfl := Option.some.inj ht
          exact h.keep rfl rfl id fun _ => rfl
  | takeCommand =>
      simp only [txSlotMachine] at ht
      split at ht
      next hservice =>
          split at ht
          next cmd ring hdequeue =>
              have hitems := (Ring.dequeue_eq_some_iff _ _ _).mp hdequeue
              split at ht
              next =>
                  obtain rfl := Option.some.inj ht
                  exact h.keep rfl rfl (fun _ => .inr ⟨rfl, rfl⟩) fun _ => rfl
              next hother =>
                  obtain rfl := Option.some.inj ht
                  refine h.keep rfl rfl (fun hw => ?_) fun _ => rfl
                  rcases hw with hmem | hserving
                  · rw [hitems] at hmem
                    rcases List.mem_cons.mp hmem with heq | hmem
                    · exact absurd heq.symm hother
                    · exact .inl hmem
                  · rw [hserving.1] at hservice
                    cases hservice
          next => cases ht
      next => cases ht
  | opportunity =>
      simp only [txSlotMachine] at ht
      split at ht
      next hservice =>
          obtain rfl := Option.some.inj ht
          refine h.keep rfl rfl (fun hw => hw.imp_right fun hserving => ?_) fun _ => rfl
          rw [hserving.1] at hservice
          cases hservice
      next => cases ht
  | service o => exact h.serviceStep ht

/-- **A successful kick reaches the service.**  In every run in which the kicks that set
`write_done_from_app` find a command buffer and room in the command ring: while a kick has
returned 0 after a buffer was enqueued and the service has not counted the ring since, a TX_KICK
is in the command ring, unless the service has just taken it and is about to count. -/
theorem kick_reaches_service {s : TxSlot α}
    (hreach :
      (txSlotMachine conn type txRing ready commandRing freeCommands).ReachableWhere kickOk s)
    (hkicked : s.kicked = true) (hserving : ¬ s.Serving) :
    Command.txKick conn ∈ s.commandRing.items := by
  have hinv : KickInv conn s := by
    refine Machine.invariant_of_step _ (kickInv_of_clear rfl rfl) ?_ hreach
    intro s a t h hok hstep
    exact kickInv_step h hok hstep
  exact (hinv.kicked hkicked).resolve_right hserving

end Run

instance (s : TxSlot Unit) : ∀ a, Decidable (kickOk s a)
  | .kickAlloc => inferInstanceAs (Decidable (s.freeCommands ≠ 0))
  | .kickPost => inferInstanceAs (Decidable (0 < s.commandRing.freeCount))
  | .send _ | .sendEnqueue | .kick | .select | .selectTake | .otherTake | .otherPost _
  | .otherFree | .otherReady _ | .takeCommand | .opportunity | .service _ => .isTrue trivial

/-- A client sends a buffer and kicks twice. -/
def sendAndKick : List (TxSlotStep Unit) :=
  [.send [()], .sendEnqueue, .kick, .kickAlloc, .kickPost, .kick]

theorem kick_reaches_service_twice :
    ∃ s, (txSlotMachine (α := Unit) 7 .stream .empty .empty .empty 1).ReachableWhere kickOk s ∧
      s.kicked = true ∧ ¬ s.Serving ∧ Command.txKick 7 ∈ s.commandRing.items := by
  have hrun : (((txSlotMachine (α := Unit) 7 .stream .empty .empty .empty 1).restrict kickOk).run
      sendAndKick).map (fun s => (s.kicked, s.service)) = some (true, .idle) := by decide
  obtain ⟨s, hs, hview⟩ := Option.map_eq_some_iff.mp hrun
  have hreach := Machine.reachableWhere_of_run _ hs
  rw [Prod.mk.injEq] at hview
  have hserving : ¬ s.Serving := by
    rintro ⟨hcount, -⟩
    rw [hview.2] at hcount
    cases hcount
  exact ⟨s, hreach, hview.1, hserving, kick_reaches_service hreach hview.1 hserving⟩

/-- The first kick finds no command buffer and returns -1 with the flag set; when there is one
again the second kick returns 0 and sends nothing. -/
theorem kick_after_failed_kick_sends_nothing :
    ∃ s, (txSlotMachine (α := Unit) 7 .stream .empty .empty .empty 0).run
        [.send [()], .sendEnqueue, .kick, .kickAlloc, .otherFree, .kick] = some s ∧
      s.kicked = true ∧ ¬ s.Serving ∧ Command.txKick 7 ∉ s.commandRing.items := by
  have hrun : ((txSlotMachine (α := Unit) 7 .stream .empty .empty .empty 0).run
      [.send [()], .sendEnqueue, .kick, .kickAlloc, .otherFree, .kick]).map
        (fun s => (s.kicked, s.service, s.commandRing.items)) = some (true, .idle, []) := by decide
  obtain ⟨s, hs, hview⟩ := Option.map_eq_some_iff.mp hrun
  rw [Prod.mk.injEq, Prod.mk.injEq] at hview
  obtain ⟨hkicked, hservice, hring⟩ := hview
  refine ⟨s, hs, hkicked, ?_, ?_⟩
  · rintro ⟨hcount, -⟩
    rw [hservice] at hcount
    cases hcount
  · rw [hring]
    exact List.not_mem_nil

end IpAugenblick
