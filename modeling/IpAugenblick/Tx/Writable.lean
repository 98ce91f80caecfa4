/-
# No lost WRITABLE wake-up

A send clears `write_ready_to_app` before it tries the ring.  Every transmission opportunity
of a stream socket ends with `ipaugenblick_mark_writable`, which posts unless the flag is set;
while the flag is set, an entry posted since the last send is in the ready ring or was taken.
The opportunity of a datagram socket returns without the mark when a `udp_sendmsg` fails, so
that a client whose send found the ring full is not told that it was emptied.
-/

import IpAugenblick.Tx.Slot

namespace IpAugenblick

open Lib

section Invariant

variable {α : Type} (conn : ℕ)

/-- Since the last send a WRITABLE entry was posted and is waiting, or was taken. -/
def TxSlot.Told (s : TxSlot α) : Prop := writableEntry conn ∈ s.ready.items ∨ s.seen = true

/-- The flag, and a finished opportunity, have a WRITABLE entry behind them. -/
structure WritableInv (s : TxSlot α) : Prop where
  flag : s.writeReadyToApp = true → s.Told conn ∨ s.service = .post
  drained : s.drained = true → s.Told conn

variable {conn} {s t : TxSlot α}

/-- A step that leaves the flag and the service where they are. -/
theorem WritableInv.keep (h : WritableInv conn s) (hflag : t.writeReadyToApp = s.writeReadyToApp)
    (hdrained : t.drained = s.drained) (htold : s.Told conn → t.Told conn)
    (hservice : s.service = .post → t.service = .post) : WritableInv conn t where
  flag := by
    rw [hflag]
    exact fun hset => (h.flag hset).imp htold hservice
  drained := by
    rw [hdrained]
    exact fun hdone => htold (h.drained hdone)

/-- An opportunity ends with the client told. -/
theorem WritableInv.finish (htold : s.Told conn) : WritableInv conn s.finish where
  flag _ := .inl htold
  drained _ := htold

/-- A send starts the account anew. -/
theorem writableInv_of_clear (hflag : t.writeReadyToApp = false) (hdrained : t.drained = false) :
    WritableInv conn t where
  flag hset := by
    rw [hflag] at hset
    cases hset
  drained hset := by
    rw [hdrained] at hset
    cases hset

/-- The guard of the runs in which every opportunity reaches its mark and the ready ring has
room for the entry: no `udp_sendmsg` fails. -/
def writableOk (s : TxSlot α) : TxSlotStep α → Prop
  | .service o =>
      (s.service = .sendmsg → o.exhausted = false) ∧ (s.service = .post → 0 < s.ready.freeCount)
  | _ => True

/-- An access of `user_on_transmission_opportunity`. -/
theorem WritableInv.serviceStep (h : WritableInv conn s) {type : SockType} {o : TxAnswer}
    (hok : writableOk s (.service o)) (ht : s.serviceStep conn type o = some t) :
    WritableInv conn t := by
  unfold TxSlot.serviceStep at ht
  split at ht
  next => cases ht
  next hpc =>
      dsimp only at ht
      have hne : s.service ≠ .post := by rw [hpc]; nofun
      split at ht
      · obtain rfl := Option.some.inj ht
        exact h.keep rfl rfl id fun hpost => absurd hpost hne
      · split at ht <;> obtain rfl := Option.some.inj ht <;>
          exact h.keep rfl rfl id fun hpost => absurd hpost hne
  next hpc =>
      have hne : s.service ≠ .post := by rw [hpc]; nofun
      split at ht <;> obtain rfl := Option.some.inj ht <;>
        exact h.keep rfl rfl id fun hpost => absurd hpost hne
  next hpc =>
      have hne : s.service ≠ .post := by rw [hpc]; nofun
      obtain rfl := Option.some.inj ht
      exact h.keep rfl rfl id fun hpost => absurd hpost hne
  next ringEntries hpc =>
      have hne : s.service ≠ .post := by rw [hpc]; nofun
      obtain rfl := Option.some.inj ht
      exact h.keep rfl rfl id fun hpost => absurd hpost hne
  next hpc =>
      have hne : s.service ≠ .post := by rw [hpc]; nofun
      rw [hok.1 hpc] at ht
      obtain rfl := Option.some.inj ht
      exact h.keep rfl rfl id fun hpost => absurd hpost hne
  next hpc =>
      have hne : s.service ≠ .post := by rw [hpc]; nofun
      split at ht
      next hset =>
          obtain rfl := Option.some.inj ht
          exact WritableInv.finish ((h.flag hset).resolve_right hne)
      next =>
          obtain rfl := Option.some.inj ht
          exact ⟨fun _ => .inr rfl, h.drained⟩
  next hpc =>
      obtain rfl := Option.some.inj ht
      exact WritableInv.finish (.inl (Ring.mem_enqueueBulk_self (hok.2 hpc)))

end Invariant

section Run

variable {α : Type} {conn : ℕ} {type : SockType} {txRing : Ring α dataRingCapacity}
  {ready : Ring ReadyEntry readyCapacity} {commandRing : Ring Command commandRingCapacity}
  {freeCommands : ℕ}

/-- **Step lemma.** -/
theorem writableInv_step {s t : TxSlot α} {a : TxSlotStep α} (h : WritableInv conn s)
    (hok : writableOk s a)
    (ht : (txSlotMachine conn type txRing ready commandRing freeCommands).step s a = some t) :
    WritableInv conn t := by
  cases a with
  | send mbufs =>
      simp only [txSlotMachine] at ht
      split at ht
      next =>
          obtain rfl := Option.some.inj ht
          exact writableInv_of_clear rfl rfl
      next => cases ht
  | sendEnqueue =>
      simp only [txSlotMachine] at ht
      split at ht
      next => split at ht <;> obtain rfl := Option.some.inj ht <;> exact h.keep rfl rfl id id
      next => cases ht
  | kick =>
      simp only [txSlotMachine] at ht
      split at ht
      next => split at ht <;> obtain rfl := Option.some.inj ht <;> exact h.keep rfl rfl id id
      next => cases ht
  | kickAlloc =>
      simp only [txSlotMachine] at ht
      split at ht
      next => split at ht <;> obtain rfl := Option.some.inj ht <;> exact h.keep rfl rfl id id
      next => cases ht
  | kickPost =>
      simp only [txSlotMachine] at ht
      split at ht
      next => split at ht <;> obtain rfl := Option.some.inj ht <;> exact h.keep rfl rfl id id
      next => cases ht
  | select =>
      simp only [txSlotMachine] at ht
      split at ht
      next =>
          obtain rfl := Option.some.inj ht
          exact h.keep rfl rfl id id
      next => cases ht
  | selectTake =>
      simp only [txSlotMachine] at ht
      split at ht
      next readyCount hpc =>
          split at ht
          next =>
              obtain rfl := Option.some.inj ht
              exact h.keep rfl rfl id id
          next =>
              obtain rfl := Option.some.inj ht
              refine h.keep rfl rfl (fun htold => ?_) id
              rcases htold with hready | hseen
              · rcases Ring.mem_dequeueBurst readyCount hready with htaken | hleft
                · right
                  simp only [htaken, decide_true, Bool.or_true]
                · exact .inl hleft
              · right
                simp only [hseen, Bool.true_or]
      next => cases ht
  | otherTake =>
      simp only [txSlotMachine] at ht
      split at ht
      next => cases ht
      next =>
          obtain rfl := Option.some.inj ht
          exact h.keep rfl rfl id id
  | otherPost cmd =>
      simp only [txSlotMachine] at ht
      split at ht
      next => cases ht
      next =>
          obtain rfl := Option.some.inj ht
          exact h.keep rfl rfl id id
  | otherFree =>
      simp only [txSlotMachine] at ht
      obtain rfl := Option.some.inj ht
      exact h.keep rfl rfl id id
  | otherReady e =>
      simp only [txSlotMachine] at ht
      split at ht
      next => cases ht
      next =>
          obtain rfl := Option.some.inj ht
          exact h.keep rfl rfl (fun htold => htold.imp_left Ring.mem_enqueueBulk) id
  | takeCommand =>
      simp only [txSlotMachine] at ht
      split at ht
      next hidle =>
          have hne : s.service ≠ .post := by rw [hidle]; nofun
          split at ht
          next =>
              split at ht <;> obtain rfl := Option.some.inj ht <;>
                exact h.keep rfl rfl id fun hpost => absurd hpost hne
          next => cases ht
      next => cases ht
  | opportunity =>
      simp only [txSlotMachine] at ht
      split at ht
      next hidle =>
          have hne : s.service ≠ .post := by rw [hidle]; nofun
          obtain rfl := Option.some.inj ht
          exact h.keep rfl rfl id fun hpost => absurd hpost hne
      next => cases ht
  | service o => exact h.serviceStep hok ht

/-- **No lost WRITABLE wake-up.**  In every run in which the ready ring has room for the
service's entries and no `udp_sendmsg` fails: when, since the client's last send, the service has
taken a buffer and finished an opportunity, a WRITABLE entry is in the ready ring or was taken by
a select since that send.  This holds whether the send had found the ring full or not. -/
theorem no_lost_writable {s : TxSlot α}
    (hreach :
      (txSlotMachine conn type txRing ready commandRing freeCommands).ReachableWhere writableOk s)
    (hdrained : s.drained = true) :
    writableEntry conn ∈ s.ready.items ∨ s.seen = true := by
  have hinv : WritableInv conn s := by
    refine Machine.invariant_of_step _ (writableInv_of_clear rfl rfl) ?_ hreach
    intro s a t h hok hstep
    exact writableInv_step h hok hstep
  exact hinv.drained hdrained

end Run

instance (s : TxSlot Unit) : ∀ a, Decidable (writableOk s a)
  | .service o => inferInstanceAs (Decidable ((s.service = .sendmsg → o.exhausted = false) ∧
      (s.service = .post → 0 < s.ready.freeCount)))
  | .send _ | .sendEnqueue | .kick | .kickAlloc | .kickPost | .select | .selectTake | .otherTake
  | .otherPost _ | .otherFree | .otherReady _ | .takeCommand | .opportunity => .isTrue trivial

def fullTxRing : Ring Unit dataRingCapacity where
  items := List.replicate dataRingCapacity ()
  bound := by rw [List.length_replicate]

/-- A send fails; a transmission opportunity of the stream socket takes three buffers, marks the
connection writable and returns. -/
def drainAfterFailedSend : List (TxSlotStep Unit) :=
  [.send [()], .sendEnqueue, .opportunity, .service {}, .service { sendpage := some 3 },
    .service {}, .service {}, .service {}, .service {}]

theorem no_lost_writable_stream :
    ∃ s, (txSlotMachine 7 .stream fullTxRing .empty .empty 0).ReachableWhere writableOk s ∧
      s.failed = true ∧ s.drained = true ∧
      (writableEntry 7 ∈ s.ready.items ∨ s.seen = true) := by
  have hrun : (((txSlotMachine 7 .stream fullTxRing .empty .empty 0).restrict writableOk).run
      drainAfterFailedSend).map (fun s => (s.failed, s.drained)) = some (true, true) := by
    decide +kernel
  obtain ⟨s, hs, hview⟩ := Option.map_eq_some_iff.mp hrun
  have hreach := Machine.reachableWhere_of_run _ hs
  rw [Prod.mk.injEq] at hview
  exact ⟨s, hreach, hview.1, hview.2, no_lost_writable hreach hview.2⟩

/-- A send fails; a transmission opportunity of the datagram socket empties the ring and returns
after a failed `udp_sendmsg`. -/
def drainWithoutMark : List (TxSlotStep Unit) :=
  [.send [()], .sendEnqueue, .opportunity, .service {}, .service {},
    .service { exhausted := true }]

/-- The opportunity has finished, the ring is empty, and the client is not told. -/
theorem exhausted_datagram_loses_writable :
    ∃ s, (txSlotMachine 7 .dgram fullTxRing .empty .empty 0).run drainWithoutMark = some s ∧
      s.failed = true ∧ s.drained = true ∧ s.service = .idle ∧ 0 < s.ready.freeCount ∧
      ¬ (writableEntry 7 ∈ s.ready.items ∨ s.seen = true) := by
  have hrun : ((txSlotMachine 7 .dgram fullTxRing .empty .empty 0).run drainWithoutMark).map
      (fun s => (s.failed, s.drained, s.service, s.ready.items, s.seen)) =
        some (true, true, .idle, [], false) := by
    decide +kernel
  obtain ⟨s, hs, hview⟩ := Option.map_eq_some_iff.mp hrun
  simp only [Prod.mk.injEq] at hview
  obtain ⟨hfailed, hdrained, hservice, hready, hseen⟩ := hview
  refine ⟨s, hs, hfailed, hdrained, hservice, ?_, ?_⟩
  · rw [Ring.freeCount, hready]
    decide
  · rw [hready, hseen]
    rintro (hmem | hset)
    · cases hmem
    · cases hset

end IpAugenblick
