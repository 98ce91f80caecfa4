/-
# A recycled connection index

CLOSE empties the rings of an index and clears its satellite data; the client that closes it
clears the half-delivered chain and the selector.  Nothing resets the three flags of the shared
`ipaugenblick_socket_t`, its local address, `any_event_received` and the addresses of the
descriptor, nor the entries in the ready rings.  The next owner is served as the first one was
exactly when its predecessors left none of these behind.
-/

import IpAugenblick.Service.Index

namespace IpAugenblick

open Lib

/-! ## What an index keeps -/

/-- Out of use in a process: nothing received is left. -/
structure LocalDescr.Quiet (d : LocalDescr) : Prop where
  select : d.select = none
  localCache : d.localCache = .empty
  shadow : d.shadow = .cleared

namespace IndexCore

variable {c c' c'' : IndexCore}

/-- A core that no one uses, with what CLOSE does not reset. -/
def vacated (c : IndexCore) : IndexCore :=
  { unused c.mem with
    readReadyToApp := c.readReadyToApp
    writeReadyToApp := c.writeReadyToApp
    writeDoneFromApp := c.writeDoneFromApp
    ready := c.ready
    log := c.log }

/-- The service worked for the owner. -/
structure Serves (c c' : IndexCore) : Prop where
  commands : c'.commands = c.commands
  free : c'.free = c.free
  holder : c'.holder = c.holder

theorem Serves.refl (c : IndexCore) : Serves c c := ⟨rfl, rfl, rfl⟩

theorem Serves.trans (h : Serves c c') (h' : Serves c' c'') : Serves c c'' :=
  ⟨h'.commands.trans h.commands, h'.free.trans h.free, h'.holder.trans h.holder⟩

theorem Serves.markReadable (h : Serves c c') : Serves c c'.markReadable := by
  refine h.trans ?_
  unfold IndexCore.markReadable
  split
  · exact .refl c'
  · split
    · exact .refl c'
    · exact ⟨rfl, rfl, rfl⟩

theorem Serves.markWritable (h : Serves c c') : Serves c c'.markWritable := by
  refine h.trans ?_
  unfold IndexCore.markWritable
  split
  · exact .refl c'
  · split
    · exact .refl c'
    · exact ⟨rfl, rfl, rfl⟩

theorem Serves.markClosed (h : Serves c c') : Serves c c'.markClosed := by
  refine h.trans ?_
  unfold IndexCore.markClosed
  split
  · exact .refl c'
  · exact ⟨rfl, rfl, rfl⟩

/-- The loop of `user_data_available_cbk`, by induction on the free slots. -/
theorem serves_deliver (c : IndexCore) (ringFree : ℕ)
    (chains : List (List UInt8 × List (List UInt8))) : Serves c (c.deliver ringFree chains) := by
  induction ringFree generalizing c chains with
  | zero => exact (Serves.refl c).markReadable
  | succ ringFree ih =>
      match chains with
      | [] => exact .refl c
      | (seg, segs) :: chains =>
          rw [deliver]
          split
          next rxRing _ =>
              have hserved : Serves c { c with mem := allocChain c.mem (seg :: segs), rxRing } :=
                ⟨rfl, rfl, rfl⟩
              exact hserved.trans (ih _ _)
          next rxRing _ =>
              have hserved : Serves c { c with mem := allocChain c.mem (seg :: segs), rxRing } :=
                ⟨rfl, rfl, rfl⟩
              exact hserved.markReadable.trans (ih _ _)
          next => exact Serves.markReadable ⟨rfl, rfl, rfl⟩

theorem Serves.userDataAvailableCbk (h : Serves c c') (o : StackAnswer) :
    Serves c (c'.userDataAvailableCbk o) :=
  h.trans (serves_deliver c' _ _)

theorem Serves.userOnTransmissionOpportunity (h : Serves c c') (type : SockType)
    (o : StackAnswer) : Serves c (c'.userOnTransmissionOpportunity type o) := by
  refine h.trans ?_
  unfold IndexCore.userOnTransmissionOpportunity
  dsimp only
  split
  · exact Serves.markWritable ⟨rfl, rfl, rfl⟩
  · split
    · exact Serves.markWritable ⟨rfl, rfl, rfl⟩
    · split
      · exact ⟨rfl, rfl, rfl⟩
      · exact Serves.markWritable ⟨rfl, rfl, rfl⟩

/-- A command either serves the owner or is the CLOSE that ends its use. -/
theorem processCommand_cases {o : StackAnswer} {cmd : IndexCommand}
    (h : c.processCommand o cmd = some c') :
    Serves c c' ∨ cmd = .close ∧
      c' = { c.userFlushRxTx with socket := none, parentIdx := none, free := true } := by
  cases cmd with
  | openSocket type parent =>
      rw [processCommand] at h
      split at h
      · obtain rfl := Option.some.inj h
        exact .inl ⟨rfl, rfl, rfl⟩
      · obtain rfl := Option.some.inj h
        exact .inl (.refl c)
  | connect =>
      obtain rfl := Option.some.inj h
      exact .inl (.refl c)
  | bind =>
      obtain rfl := Option.some.inj h
      exact .inl (.refl c)
  | listen =>
      obtain ⟨k, -, rfl⟩ := Option.map_eq_some_iff.mp h
      exact .inl ⟨rfl, rfl, rfl⟩
  | close =>
      rw [processCommand] at h
      split at h
      · obtain rfl := Option.some.inj h
        exact .inl (.refl c)
      · exact .inr ⟨rfl, (Option.some.inj h).symm⟩
  | txKick =>
      rw [processCommand] at h
      split at h
      · obtain rfl := Option.some.inj h
        exact .inl (.refl c)
      · split at h
        · cases h
        · obtain rfl := Option.some.inj h
          exact .inl ((Serves.refl c).userOnTransmissionOpportunity _ o)
  | rxKick =>
      rw [processCommand] at h
      split at h
      · obtain rfl := Option.some.inj h
        exact .inl (.refl c)
      · split at h
        · cases h
        · obtain rfl := Option.some.inj h
          exact .inl ((Serves.refl c).userDataAvailableCbk o)
  | setSocketRing =>
      obtain rfl := Option.some.inj h
      refine .inl (.markReadable (.markWritable (.userDataAvailableCbk ?_ o)))
      exact ⟨rfl, rfl, rfl⟩
  | setSocketSelect select =>
      rw [processCommand] at h
      dsimp only at h
      split at h
      · split at h
        · obtain rfl := Option.some.inj h
          exact .inl ⟨rfl, rfl, rfl⟩
        · cases h
      · split at h
        · cases h
        · obtain rfl := Option.some.inj h
          refine .inl (.markReadable (.markWritable (.userDataAvailableCbk ?_ o)))
          exact ⟨rfl, rfl, rfl⟩
  | txPoolEmpty =>
      obtain rfl := Option.some.inj h
      exact .inl ⟨rfl, rfl, rfl⟩

/-- An event processes a command, or serves the socket of the index. -/
theorem event_cases {e : IndexEvent} (h : c.event e = some c') :
    (∃ o cmd commands, c.commands = cmd :: commands ∧
      { c with commands }.processCommand o cmd = some c') ∨ c.socket ≠ none ∧ Serves c c' := by
  have hserved : ∀ {f : IndexSock → Option IndexCore}, c.socket.bind f = some c' →
      (∀ k, f k = some c' → Serves c c') → c.socket ≠ none ∧ Serves c c' := by
    intro f hbind hf
    obtain ⟨k, hk, hfk⟩ := Option.bind_eq_some_iff.mp hbind
    exact ⟨by rw [hk]; exact Option.some_ne_none k, hf k hfk⟩
  cases e with
  | processCommands o =>
      rw [event] at h
      split at h
      next => cases h
      next cmd commands hcommands => exact .inl ⟨o, cmd, commands, hcommands, h⟩
  | dataAvailable o =>
      refine .inr (hserved h fun k hk => ?_)
      split at hk
      · cases hk
      · obtain rfl := Option.some.inj hk
        exact (Serves.refl c).userDataAvailableCbk o
  | transmissionOpportunity o =>
      refine .inr (hserved h fun k hk => ?_)
      split at hk
      · cases hk
      · obtain rfl := Option.some.inj hk
        exact (Serves.refl c).userOnTransmissionOpportunity _ o
  | buffersAvailable removed =>
      refine .inr (hserved h fun k hk => ?_)
      split at hk
      · obtain rfl := Option.some.inj hk
        exact Serves.markWritable ⟨rfl, rfl, rfl⟩
      · cases hk
  | postAccepted =>
      refine .inr (hserved h fun k hk => ?_)
      split at hk
      · split at hk
        · obtain rfl := Option.some.inj hk
          exact Serves.markReadable ⟨rfl, rfl, rfl⟩
        · obtain rfl := Option.some.inj hk
          exact .refl c
      · cases hk
  | socketFatal =>
      refine .inr (hserved h fun k hk => ?_)
      obtain rfl := Option.some.inj hk
      exact Serves.markClosed ⟨rfl, rfl, rfl⟩

/-- The owner may have sent a command, and it still owns the index. -/
structure Sends (c c' : IndexCore) : Prop where
  commands : ∃ sent, .close ∉ sent ∧ c'.commands = c.commands ++ sent
  free : c'.free = c.free
  holder : c'.holder = c.holder

theorem Serves.sends (h : Serves c c') : Sends c c' :=
  ⟨⟨[], List.not_mem_nil, by rw [h.commands, List.append_nil]⟩, h.free, h.holder⟩

theorem Serves.sendCommand (h : Serves c c') (sending : Sending) {cmd : IndexCommand}
    (hcmd : cmd ≠ .close) : Sends c (c'.sendCommand sending cmd) := by
  cases sending with
  | noBuf => exact h.sends
  | ringFull => exact h.sends
  | queued =>
      refine ⟨⟨[cmd], fun hmem => hcmd (List.mem_singleton.mp hmem).symm, ?_⟩, h.free, h.holder⟩
      show c'.commands ++ [cmd] = _
      rw [h.commands]

theorem Sends.post (h : Sends c c') (selector : ℕ) (bit : ReadyBit) :
    Sends c (c'.post selector bit) :=
  ⟨h.commands, h.free, h.holder⟩

/-- A call of the owner that is not a close. -/
theorem sends_ownerCall {localAddr : ℕ × ℕ} {d d' : LocalDescr} {call : IndexCall}
    (hcall : ∀ sending, call ≠ .close sending)
    (h : c.ownerCall localAddr d call = some (c', d')) : Sends c c' := by
  have hkept : ∀ {x : IndexCore} {e : LocalDescr}, some (x, e) = some (c', d') → Sends c x →
      Sends c c' := by
    intro x e heq hsends
    obtain ⟨rfl, -⟩ := Prod.mk.inj (Option.some.inj heq)
    exact hsends
  cases call with
  | openSocket _ _ _ => cases h
  | accept _ _ _ => cases h
  | select _ => cases h
  | close sending => exact absurd rfl (hcall sending)
  | bind addr sending => exact hkept h ((Serves.refl c).sendCommand sending nofun)
  | connect addr sending => exact hkept h ((Serves.refl c).sendCommand sending nofun)
  | listen sending => exact hkept h ((Serves.refl c).sendCommand sending nofun)
  | setSocketSelect select sending => exact hkept h ((Serves.refl c).sendCommand sending nofun)
  | send n =>
      refine hkept h ?_
      split
      · exact Serves.sends ⟨rfl, rfl, rfl⟩
      · exact Serves.sends ⟨rfl, rfl, rfl⟩
  | receive totalLen kick =>
      rw [ownerCall] at h
      split at h
      next =>
          dsimp only at h
          obtain ⟨x, hx⟩ : ∃ x, x = (if (c.rxClient d).receiveDequeues totalLen then
              { (c.putRxClient d ((c.rxClient d).ipaugenblickReceive totalLen).2).1 with
                readReadyToApp := false }.sendCommand kick .rxKick
            else (c.putRxClient d ((c.rxClient d).ipaugenblickReceive totalLen).2).1) := ⟨_, rfl⟩
          have hsends : Sends c x := by
            rw [hx]
            split
            · refine Serves.sendCommand ?_ kick ?_
              · exact ⟨rfl, rfl, rfl⟩
              · exact nofun
            · exact Serves.sends ⟨rfl, rfl, rfl⟩
          rw [← hx] at h
          split at h
          · refine hkept h ?_
            split
            · exact hsends.post _ _
            · exact hsends
          · exact hkept h hsends
      next => cases h
  | receivefrom kick =>
      rw [ownerCall] at h
      split at h
      · refine hkept h (Serves.sendCommand ?_ kick ?_)
        · exact ⟨rfl, rfl, rfl⟩
        · exact nofun
      · cases h
  | releaseRxBuffer pdesc => exact hkept h (Serves.sends ⟨rfl, rfl, rfl⟩)
  | acceptFrom =>
      rw [ownerCall] at h
      split at h
      · exact hkept h (Serves.sends ⟨rfl, rfl, rfl⟩)
      · cases h
  | socketKick sending =>
      rw [ownerCall] at h
      split at h
      · exact hkept h (Serves.refl c).sends
      · dsimp only at h
        split at h
        · refine hkept h (Serves.sendCommand ?_ .queued ?_)
          · exact ⟨rfl, rfl, rfl⟩
          · exact nofun
        · exact hkept h (Serves.sends ⟨rfl, rfl, rfl⟩)
  | getSocketTxSpace low sending =>
      rw [ownerCall] at h
      split at h
      · refine hkept h (Serves.sendCommand ?_ sending ?_)
        · exact ⟨rfl, rfl, rfl⟩
        · exact nofun
      · exact hkept h (Serves.refl c).sends
  | getsockname isLocal => exact hkept h (Serves.sends ⟨rfl, rfl, rfl⟩)
  | isConnected => exact hkept h (Serves.sends ⟨rfl, rfl, rfl⟩)

/-- A close that is not put off leaves nothing in the process, and sends CLOSE at most. -/
theorem ownerCall_close {localAddr : ℕ × ℕ} {d d' : LocalDescr} {sending : Sending}
    (h : c.ownerCall localAddr d (.close sending) = some (c', d')) :
    c' = c ∧ d' = d ∨ d'.Quiet ∧ c'.free = c.free ∧ c'.holder = none ∧
      (c'.commands = c.commands ∨ c'.commands = c.commands ++ [.close]) := by
  cases sending with
  | noBuf =>
      obtain ⟨rfl, rfl⟩ := Prod.mk.inj (Option.some.inj h)
      exact .inl ⟨rfl, rfl⟩
  | ringFull =>
      obtain ⟨rfl, rfl⟩ := Prod.mk.inj (Option.some.inj h)
      exact .inr ⟨⟨rfl, rfl, rfl⟩, rfl, rfl, .inl rfl⟩
  | queued =>
      obtain ⟨rfl, rfl⟩ := Prod.mk.inj (Option.some.inj h)
      exact .inr ⟨⟨rfl, rfl, rfl⟩, rfl, rfl, .inr rfl⟩

/-- A call takes the index, looks into a ready ring, or is a call of the owner. -/
theorem call_cases {a : ℕ} {localAddr : ℕ × ℕ} {d : LocalDescr} {call : IndexCall}
    {done : IndexCore × LocalDescr} (h : c.call a localAddr d call = some done) :
    (∃ type parent sending, call = .openSocket type parent sending) ∨
      (∃ remote listener queued, call = .accept remote listener queued) ∨
      (∃ selector, call = .select selector) ∨
      c.holder = some a ∧ c.ownerCall localAddr d call = some done := by
  unfold IndexCore.call at h
  split at h
  next type parent sending => exact .inl ⟨type, parent, sending, rfl⟩
  next remote listener queued => exact .inr (.inl ⟨remote, listener, queued, rfl⟩)
  next selector => exact .inr (.inr (.inl ⟨selector, rfl⟩))
  next =>
      split at h
      next hholder => exact .inr (.inr (.inr ⟨hholder, h⟩))
      next => cases h

end IndexCore

/-! ## The invariant -/

/-- What holds of an index between its owners and while it is owned.  Only CLOSE makes it free,
and CLOSE is the last command of an owner, so what a new owner finds is what CLOSE and the library
calls have left. -/
structure IndexInv (s : IndexState) : Prop where
  /-- Only the owner's process has something received. -/
  quiet : ∀ p, s.core.holder ≠ some p → (s.descr p).Quiet
  /-- CLOSE is the last command of an owner. -/
  closing : ∀ pre post, s.core.commands = pre ++ .close :: post →
    post = [] ∧ s.core.holder = none
  /-- CLOSE leaves the index as it was but for the flags and the ready rings. -/
  free : s.core.free = true → s.core = s.core.vacated

namespace IndexInv

variable {s t : IndexState}

theorem holder_of_free (h : IndexInv s) (hfree : s.core.free = true) : s.core.holder = none := by
  rw [h.free hfree]
  rfl

theorem commands_of_free (h : IndexInv s) (hfree : s.core.free = true) : s.core.commands = [] := by
  rw [h.free hfree]
  rfl

theorem not_free (h : IndexInv s) {a : ℕ} (hholder : s.core.holder = some a) :
    s.core.free = false := by
  rw [← Bool.not_eq_true]
  intro hfree
  rw [h.holder_of_free hfree] at hholder
  cases hholder

/-- A process changes its own descriptor. -/
theorem quiet_update {descr : ℕ → LocalDescr} {holder : Option ℕ} {a : ℕ} {d : LocalDescr}
    (h : ∀ p, holder ≠ some p → (descr p).Quiet) (hd : holder ≠ some a → d.Quiet) (p : ℕ)
    (hp : holder ≠ some p) : (Function.update descr a d p).Quiet := by
  by_cases hpa : p = a
  · subst hpa
    rw [Function.update_self]
    exact hd hp
  · rw [Function.update_of_ne hpa]
    exact h p hp

/-- A process takes the index, and its command is sent. -/
theorem taken (h : IndexInv s) (hfree : s.core.free = true) (a : ℕ) (d : LocalDescr)
    {cmd : IndexCommand} (hcmd : cmd ≠ .close) :
    IndexInv { s with
      core := { s.core with
        free := false, holder := some a, commands := s.core.commands ++ [cmd] }
      descr := Function.update s.descr a d } := by
  refine ⟨fun p hp => ?_, fun pre post hsplit => ?_, nofun⟩
  · have hpa : p ≠ a := fun heq => hp (congrArg some heq.symm)
    dsimp only
    rw [Function.update_of_ne hpa]
    apply h.quiet
    rw [h.holder_of_free hfree]
    exact nofun
  · dsimp only at hsplit
    rw [h.commands_of_free hfree, List.nil_append] at hsplit
    have hmem : IndexCommand.close ∈ [cmd] := by
      rw [hsplit]
      exact List.mem_append_right _ List.mem_cons_self
    exact absurd (List.mem_singleton.mp hmem).symm hcmd

/-- A process takes the index, and its command is not sent. -/
theorem lost (h : IndexInv s) (hfree : s.core.free = true) {a : ℕ} {d : LocalDescr}
    (hquiet : (s.descr a).Quiet → d.Quiet) :
    IndexInv { s with
      core := { s.core with free := false }, descr := Function.update s.descr a d } := by
  refine ⟨quiet_update h.quiet fun _ => hquiet ?_, fun pre post hsplit => ?_, nofun⟩
  · apply h.quiet
    rw [h.holder_of_free hfree]
    exact nofun
  · exact h.closing pre post hsplit

theorem step_open (h : IndexInv s) {a : ℕ} {type : SockType} {parent : Option ℕ}
    {sending : Sending}
    (ht : indexMachine.step s (.call a (.openSocket type parent sending)) = some t) :
    IndexInv t := by
  obtain ⟨done, hcall, rfl⟩ := Option.map_eq_some_iff.mp ht
  unfold IndexCore.call at hcall
  dsimp only at hcall
  split at hcall
  next hfree =>
      split at hcall
      · obtain rfl := Option.some.inj hcall
        exact h.taken hfree a _ nofun
      · obtain rfl := Option.some.inj hcall
        exact h.lost hfree fun hquiet => hquiet
  next => cases hcall

theorem step_accept (h : IndexInv s) {a : ℕ} {remote listener : ℕ × ℕ} {queued : Bool}
    (ht : indexMachine.step s (.call a (.accept remote listener queued)) = some t) :
    IndexInv t := by
  obtain ⟨done, hcall, rfl⟩ := Option.map_eq_some_iff.mp ht
  rw [IndexCore.call] at hcall
  split at hcall
  next hfree =>
      dsimp only at hcall
      split at hcall
      · obtain rfl := Option.some.inj hcall
        exact h.taken hfree a _ nofun
      · obtain rfl := Option.some.inj hcall
        exact h.lost hfree fun hquiet => ⟨hquiet.select, hquiet.localCache, rfl⟩
  next => cases hcall

theorem step_select (h : IndexInv s) {a selector : ℕ}
    (ht : indexMachine.step s (.call a (.select selector)) = some t) : IndexInv t := by
  simp only [indexMachine, IndexCore.call, Option.map_some, Option.some.injEq] at ht
  obtain rfl := ht
  refine ⟨quiet_update h.quiet fun hholder => ?_, h.closing, fun hfree => ?_⟩
  · obtain ⟨hselect, hcache, hshadow⟩ := h.quiet a hholder
    split
    · exact ⟨hselect, hcache, hshadow⟩
    · exact ⟨hselect, hcache, hshadow⟩
  · have hcore := h.free hfree
    dsimp only
    rw [hcore]
    rfl

/-- The owner sends a command or does something else that is not a close. -/
theorem sends (h : IndexInv s) {a : ℕ} {c : IndexCore} {d : LocalDescr}
    (hholder : s.core.holder = some a) (hsends : s.core.Sends c) :
    IndexInv { s with core := c, descr := Function.update s.descr a d } := by
  obtain ⟨sent, hsent, hcommands⟩ := hsends.commands
  refine ⟨fun p hp => ?_, fun pre post hsplit => ?_, fun hfree => ?_⟩
  · dsimp only at hp ⊢
    rw [hsends.holder] at hp
    refine quiet_update h.quiet (fun hne => absurd hholder hne) p hp
  · exfalso
    have hmem : IndexCommand.close ∈ s.core.commands ++ sent := by
      rw [← hcommands]
      show _ ∈ c.commands
      rw [show c.commands = _ from hsplit]
      exact List.mem_append_right _ List.mem_cons_self
    rcases List.mem_append.mp hmem with hold | hnew
    · obtain ⟨pre', post', hold⟩ := List.append_of_mem hold
      have hnone := (h.closing pre' post' hold).2
      rw [hholder] at hnone
      cases hnone
    · exact hsent hnew
  · have hbefore := h.not_free hholder
    dsimp only at hfree
    rw [hsends.free, hbefore] at hfree
    cases hfree

/-- The owner closes. -/
theorem closed (h : IndexInv s) {a : ℕ} {c : IndexCore} {d : LocalDescr}
    (hholder : s.core.holder = some a) (hquiet : d.Quiet) (hfree : c.free = s.core.free)
    (hnone : c.holder = none)
    (hcommands : c.commands = s.core.commands ∨ c.commands = s.core.commands ++ [.close]) :
    IndexInv { s with core := c, descr := Function.update s.descr a d } := by
  have hopen : IndexCommand.close ∉ s.core.commands := by
    intro hmem
    obtain ⟨pre, post, hsplit⟩ := List.append_of_mem hmem
    have hnone := (h.closing pre post hsplit).2
    rw [hholder] at hnone
    cases hnone
  refine ⟨fun p _ => ?_, fun pre post hsplit => ⟨?_, hnone⟩, fun hafter => ?_⟩
  · by_cases hpa : p = a
    · subst hpa
      dsimp only
      rw [Function.update_self]
      exact hquiet
    · dsimp only
      rw [Function.update_of_ne hpa]
      apply h.quiet
      rw [hholder]
      exact fun heq => hpa (Option.some.inj heq).symm
  · dsimp only at hsplit
    rcases hcommands with hsame | hsent
    · rw [hsame] at hsplit
      refine absurd ?_ hopen
      rw [hsplit]
      exact List.mem_append_right _ List.mem_cons_self
    · rw [hsent] at hsplit
      rcases List.eq_nil_or_concat post with hnil | ⟨init, last, rfl⟩
      · exact hnil
      · rw [List.concat_eq_append, ← List.cons_append, ← List.append_assoc] at hsplit
        obtain ⟨hinit, -⟩ := List.append_inj' hsplit rfl
        refine absurd ?_ hopen
        rw [hinit]
        exact List.mem_append_right _ List.mem_cons_self
  · have hbefore := h.not_free hholder
    dsimp only at hafter
    rw [hfree, hbefore] at hafter
    cases hafter

theorem step_owner (h : IndexInv s) {a : ℕ} {call : IndexCall} {done : IndexCore × LocalDescr}
    (hholder : s.core.holder = some a)
    (hcall : s.core.ownerCall s.localAddr (s.descr a) call = some done) :
    IndexInv { s with core := done.1, descr := Function.update s.descr a done.2 } := by
  by_cases hclose : ∃ sending, call = .close sending
  · obtain ⟨sending, rfl⟩ := hclose
    rcases IndexCore.ownerCall_close hcall with ⟨hc, hd⟩ | ⟨hquiet, hfree, hnone, hcommands⟩
    · rw [hc]
      exact h.sends hholder (IndexCore.Serves.refl _).sends
    · exact h.closed hholder hquiet hfree hnone hcommands
  · have hne : ∀ sending, call ≠ .close sending := fun sending heq => hclose ⟨sending, heq⟩
    exact h.sends hholder (IndexCore.sends_ownerCall hne hcall)

/-- The service works for the owner, with or without a command taken from the ring. -/
theorem serves (h : IndexInv s) {c d : IndexCore} {addr : ℕ × ℕ} (hserves : c.Serves d)
    (htail : ∃ pre, s.core.commands = pre ++ c.commands) (hfree : c.free = false)
    (hholder : c.holder = s.core.holder) :
    IndexInv { s with core := d, localAddr := addr } := by
  refine ⟨fun p hp => ?_, fun pre post hsplit => ?_, fun hafter => ?_⟩
  · dsimp only at hp
    rw [hserves.holder, hholder] at hp
    exact h.quiet p hp
  · obtain ⟨taken, htaken⟩ := htail
    dsimp only at hsplit
    rw [hserves.commands] at hsplit
    rw [hsplit, ← List.append_assoc] at htaken
    dsimp only
    rw [hserves.holder, hholder]
    exact h.closing _ post htaken
  · dsimp only at hafter
    rw [hserves.free, hfree] at hafter
    cases hafter

theorem step_event (h : IndexInv s) {e : IndexEvent} {c : IndexCore} {addr : ℕ × ℕ}
    (hevent : s.core.event e = some c) : IndexInv { s with core := c, localAddr := addr } := by
  rcases IndexCore.event_cases hevent with
    ⟨o, cmd, commands, hcommands, hprocess⟩ | ⟨hsocket, hserves⟩
  · have hfree : s.core.free = false := by
      rw [← Bool.not_eq_true]
      intro hfree
      rw [h.commands_of_free hfree] at hcommands
      cases hcommands
    rcases IndexCore.processCommand_cases hprocess with hserves | ⟨rfl, rfl⟩
    · exact h.serves hserves ⟨[cmd], hcommands⟩ hfree rfl
    · obtain ⟨rfl, hnone⟩ := h.closing [] commands hcommands
      refine ⟨h.quiet, fun pre post hsplit => ?_, fun _ => ?_⟩
      · cases pre with
        | nil => cases hsplit
        | cons _ _ => cases hsplit
      · simp only [IndexCore.userFlushRxTx, IndexCore.vacated, IndexCore.unused, hnone]
  · have hfree : s.core.free = false := by
      rw [← Bool.not_eq_true]
      intro hfree
      rw [h.free hfree] at hsocket
      exact hsocket rfl
    exact h.serves hserves ⟨[], rfl⟩ hfree rfl

/-- **Step lemma.** -/
theorem step (h : IndexInv s) {x : IndexStep} (ht : indexMachine.step s x = some t) :
    IndexInv t := by
  cases x with
  | call a call =>
      obtain ⟨done, hcall, hdone⟩ := Option.map_eq_some_iff.mp ht
      rcases IndexCore.call_cases hcall with
        ⟨type, parent, sending, rfl⟩ | ⟨remote, listener, queued, rfl⟩ | ⟨selector, rfl⟩ |
        ⟨hholder, howner⟩
      · exact h.step_open ht
      · exact h.step_accept ht
      · exact h.step_select ht
      · obtain rfl := hdone
        exact h.step_owner hholder howner
  | service e =>
      obtain ⟨c, hevent, rfl⟩ := Option.map_eq_some_iff.mp ht
      exact h.step_event hevent

end IndexInv

/-! ## What the next owner observes -/

/-- A call that takes the index from `free_connections_ring`. -/
def IndexCall.Takes : IndexCall → Prop
  | .openSocket _ _ _ => True
  | .accept _ _ _ => True
  | _ => False

/-- A step of the process `a` or of the service. -/
def IndexStep.By (a : ℕ) : IndexStep → Prop
  | .call b _ => b = a
  | .service _ => True

namespace IndexState

/-- No owner before left anything that the process `a` could observe. -/
structure Clean (s : IndexState) (a : ℕ) : Prop where
  readReadyToApp : s.core.readReadyToApp = false
  writeReadyToApp : s.core.writeReadyToApp = false
  writeDoneFromApp : s.core.writeDoneFromApp = false
  localIpaddr : s.localAddr.1 = 0
  anyEventReceived : (s.descr a).anyEventReceived = false
  localAddr : (s.descr a).localAddr = (0, 0)
  remoteAddr : (s.descr a).remoteAddr = (0, 0)
  ready : ∀ selector, s.core.ready selector = []

section Observations

variable {s : IndexState}

/-- The process `a` has opened the index. -/
def opened (s : IndexState) (a : ℕ) (parent : Option ℕ) : IndexState :=
  { s with
    core := { s.core.vacated with
      free := false, holder := some a, commands := [.openSocket .stream parent], log := [] }
    descr := Function.update s.descr a { s.descr a with select := parent, shadow := .cleared } }

theorem observe_open (hs : s.core = s.core.vacated) (a : ℕ) (parent : Option ℕ)
    (rest : List IndexStep) :
    s.observe (.call a (.openSocket .stream parent .queued) :: rest) =
      (indexMachine.runFrom (s.opened a parent) rest).map fun t => t.core.log := by
  rw [observe, hs]
  rfl

/-- A call of the owner. -/
theorem step_ownerCall {a : ℕ} (call : IndexCall) (hholder : s.core.holder = some a)
    (htakes : ¬ call.Takes) (hselect : ∀ selector, call ≠ .select selector) :
    indexMachine.step s (.call a call) =
      (s.core.ownerCall s.localAddr (s.descr a) call).map fun done =>
        { s with core := done.1, descr := Function.update s.descr a done.2 } := by
  have hcall : s.core.call a s.localAddr (s.descr a) call =
      s.core.ownerCall s.localAddr (s.descr a) call := by
    unfold IndexCore.call
    split
    · exact absurd trivial htakes
    · exact absurd trivial htakes
    · exact absurd rfl (hselect _)
    · rw [if_pos hholder]
  rw [← hcall]
  rfl

theorem observe_kick (hs : s.core = s.core.vacated) (a : ℕ) :
    s.observe [.call a (.openSocket .stream none .queued), .call a (.socketKick .queued)] =
      some (if s.core.writeDoneFromApp then [] else [.txKick]) := by
  rw [observe_open hs, Machine.runFrom_cons, step_ownerCall (.socketKick .queued) rfl id nofun,
    IndexCore.ownerCall]
  have hflag : (s.opened a none).core.writeDoneFromApp = s.core.writeDoneFromApp := rfl
  rw [hflag]
  split
  · rfl
  · rfl

theorem observe_sockname (hs : s.core = s.core.vacated) (a : ℕ) (isLocal : Bool) :
    s.observe [.call a (.openSocket .stream none .queued), .call a (.getsockname isLocal)] =
      some [.sockname (getsockname s.localAddr (s.descr a) isLocal)] := by
  rw [observe_open hs, Machine.runFrom_cons, step_ownerCall (.getsockname isLocal) rfl id nofun,
    IndexCore.ownerCall]
  have hdescr : (s.opened a none).descr a =
      { s.descr a with select := none, shadow := .cleared } := Function.update_self _ _ _
  rw [hdescr]
  rfl

theorem observe_connected (hs : s.core = s.core.vacated) (a selector : ℕ) :
    s.observe [.call a (.openSocket .stream (some selector) .queued), .call a (.select selector),
        .call a .isConnected] =
      some [.connected ((s.descr a).anyEventReceived || decide (s.core.ready selector ≠ []))] := by
  have hdescr : (s.opened a (some selector)).descr a =
      { s.descr a with select := some selector, shadow := .cleared } := Function.update_self _ _ _
  have hready : (s.opened a (some selector)).core.ready = s.core.ready := rfl
  rw [observe_open hs, Machine.runFrom_cons]
  simp only [indexMachine, IndexCore.call, Option.map_some, Option.bind_some, hdescr, hready]
  show (indexMachine.runFrom _ [.call a .isConnected]).map _ = _
  rw [Machine.runFrom_cons, step_ownerCall .isConnected rfl id nofun, IndexCore.ownerCall]
  simp only [Function.update_self, ne_eq, reduceCtorEq, not_false_eq_true, true_and]
  by_cases hempty : s.core.ready selector = []
  · rw [if_neg (fun hne => hne hempty), decide_eq_false (fun hne => hne hempty), Bool.or_false]
    rfl
  · rw [if_pos hempty, decide_eq_true hempty, Bool.or_true]
    rfl

theorem observe_marks (hs : s.core = s.core.vacated) (a : ℕ) :
    s.observe [.call a (.openSocket .stream none .queued), .service (.processCommands {}),
        .call a (.setSocketSelect (some 0) .queued), .service (.processCommands {})] =
      some ((if s.core.writeReadyToApp then [] else [.posted 0 .writable]) ++
        if s.core.readReadyToApp then [] else [.posted 0 .readable]) := by
  obtain ⟨t, ht⟩ : ∃ t : IndexState, t = { s.opened a none with
      core := { (s.opened a none).core with
        commands := [], socket := some ⟨.stream, false, false⟩ } } := ⟨_, rfl⟩
  have hopen : indexMachine.step (s.opened a none) (.service (.processCommands {})) = some t := by
    rw [ht]
    rfl
  have hholder : t.core.holder = some a := by rw [ht]; rfl
  rw [observe_open hs, Machine.runFrom_cons, hopen, Option.bind_some, Machine.runFrom_cons,
    step_ownerCall (.setSocketSelect (some 0) .queued) hholder id nofun, IndexCore.ownerCall, ht]
  clear hs hholder hopen ht
  obtain ⟨⟨read, write, done, socket, parent, mem, rx, backlog, tx, ready, commands, free, holder,
    log⟩, addr, descr⟩ := s
  cases read <;> cases write <;> rfl

end Observations

/-! ## Two runs -/

/-- Two indices that the process `a` cannot tell apart. -/
structure SameFor (a : ℕ) (s t : IndexState) : Prop where
  core : s.core = t.core
  descr : s.descr a = t.descr a
  localAddr : s.localAddr = t.localAddr ∨ s.localAddr.1 = 0 ∧ t.localAddr.1 = 0

namespace SameFor

variable {a : ℕ} {s t : IndexState}

/-- The shared address matters to `ipaugenblick_getsockname` only, and only when it is set. -/
theorem getsockname_eq (h : SameFor a s t) (isLocal : Bool) :
    getsockname s.localAddr (s.descr a) isLocal = getsockname t.localAddr (t.descr a) isLocal := by
  rw [h.descr]
  rcases h.localAddr with heq | ⟨hs, ht⟩
  · rw [heq]
  · unfold getsockname
    rw [if_neg (not_not.mpr hs), if_neg (not_not.mpr ht)]

theorem ownerCall_eq (h : SameFor a s t) (call : IndexCall) :
    s.core.ownerCall s.localAddr (s.descr a) call =
      t.core.ownerCall t.localAddr (t.descr a) call := by
  cases call with
  | getsockname isLocal =>
      simp only [IndexCore.ownerCall]
      rw [h.getsockname_eq, h.core, h.descr]
  | close sending =>
      cases sending with
      | _ =>
          rw [h.core, h.descr]
          rfl
  | _ =>
      rw [h.core, h.descr]
      rfl

theorem call_eq (h : SameFor a s t) (call : IndexCall) :
    s.core.call a s.localAddr (s.descr a) call = t.core.call a t.localAddr (t.descr a) call := by
  have howner := h.ownerCall_eq call
  cases call with
  | openSocket type parent sending =>
      rw [h.core, h.descr]
      rfl
  | accept remote listener queued =>
      rw [h.core, h.descr]
      rfl
  | select selector =>
      rw [h.core, h.descr]
      rfl
  | _ =>
      simp only [IndexCore.call]
      rw [howner, h.core]

theorem nextLocalAddr (h : SameFor a s t) (e : IndexEvent) :
    s.nextLocalAddr e = t.nextLocalAddr e ∨
      (s.nextLocalAddr e).1 = 0 ∧ (t.nextLocalAddr e).1 = 0 := by
  cases e with
  | processCommands o =>
      simp only [IndexState.nextLocalAddr, h.core]
      split
      · cases o.connected with
        | none => exact h.localAddr
        | some addr => exact .inl rfl
      · exact h.localAddr
  | _ => exact h.localAddr

/-- **Step lemma.** -/
theorem step (h : SameFor a s t) {x : IndexStep} (hx : x.By a) :
    Option.Rel (SameFor a) (indexMachine.step s x) (indexMachine.step t x) := by
  cases x with
  | call b call =>
      obtain rfl : b = a := hx
      simp only [indexMachine, h.call_eq call]
      cases t.core.call b t.localAddr (t.descr b) call with
      | none => exact .none
      | some done =>
          refine .some ⟨rfl, ?_, h.localAddr⟩
          dsimp only
          rw [Function.update_self, Function.update_self]
  | service e =>
      simp only [indexMachine, h.core]
      cases t.core.event e with
      | none => exact .none
      | some c => exact .some ⟨rfl, h.descr, h.nextLocalAddr e⟩

theorem observe_eq (h : SameFor a s t) {steps : List IndexStep} (hsteps : ∀ x ∈ steps, x.By a) :
    s.observe steps = t.observe steps := by
  have hstart : SameFor a { s with core := { s.core with log := [] } }
      { t with core := { t.core with log := [] } } := by
    refine ⟨?_, h.descr, h.localAddr⟩
    rw [h.core]
  have hlog : ∀ {x y : Option IndexState}, Option.Rel (SameFor a) x y →
      x.map (fun t => t.core.log) = y.map fun t => t.core.log := by
    intro x y hxy
    cases hxy with
    | none => rfl
    | some hend => rw [Option.map_some, Option.map_some, hend.core]
  exact hlog
    (indexMachine.runFrom_rel (fun _ _ _ h hx => SameFor.step h hx) steps hsteps hstart)

end SameFor

end IndexState

/-- Every free index of a run is vacated. -/
theorem index_vacated {s : IndexState} (hreach : indexMachine.Reachable s) : IndexInv s := by
  refine indexMachine.invariant_of_step ?_ ?_ hreach
  · refine ⟨fun _ _ => ⟨rfl, rfl, rfl⟩, fun pre post hsplit => ?_, fun _ => rfl⟩
    cases pre with
    | nil => cases hsplit
    | cons _ _ => cases hsplit
  · intro s x t h _ ht
    exact h.step ht

namespace IndexState

/-- The next owner of an index with nothing left on it. -/
theorem Clean.sameFor {s : IndexState} {a : ℕ} (hs : s.core = s.core.vacated)
    (hquiet : (s.descr a).Quiet) (hclean : s.Clean a) :
    SameFor a { s with core := { s.core with log := [] } } (.unused s.core.mem) := by
  refine ⟨?_, ?_, .inr ⟨hclean.localIpaddr, rfl⟩⟩
  · have hready : s.core.ready = fun _ => [] := funext hclean.ready
    dsimp only
    rw [hs]
    simp only [IndexCore.vacated, hclean.readReadyToApp, hclean.writeReadyToApp,
      hclean.writeDoneFromApp, hready]
    rfl
  · show s.descr a = LocalDescr.initial
    obtain ⟨hselect, hcache, hshadow⟩ := hquiet
    obtain ⟨-, -, -, -, hevent, hlocal, hremote, -⟩ := hclean
    cases hd : s.descr a with
    | mk select event localAddr remoteAddr cache shadow =>
        simp only [hd] at hselect hcache hshadow hevent hlocal hremote
        rw [hselect, hcache, hshadow, hevent, hlocal, hremote]
        rfl

/-- What is left shows in one of five short continuations. -/
theorem clean_of_observe {s : IndexState} {a : ℕ} (hs : s.core = s.core.vacated)
    (hall : ∀ call rest, IndexCall.Takes call → (∀ x ∈ rest, IndexStep.By a x) →
      s.observe (.call a call :: rest) =
        (IndexState.unused s.core.mem).observe (.call a call :: rest)) : s.Clean a := by
  have hunused : (IndexState.unused s.core.mem).core = (IndexState.unused s.core.mem).core.vacated :=
    rfl
  have hown : ∀ call, IndexStep.By a (.call a call) := fun _ => rfl
  have hservice : ∀ e, IndexStep.By a (.service e) := fun _ => trivial
  have hmarks := hall (.openSocket .stream none .queued)
    [.service (.processCommands {}), .call a (.setSocketSelect (some 0) .queued),
      .service (.processCommands {})] trivial (by
        intro x hx
        simp only [List.mem_cons, List.not_mem_nil, or_false] at hx
        rcases hx with rfl | rfl | rfl
        · exact hservice _
        · exact hown _
        · exact hservice _)
  have hkick := hall (.openSocket .stream none .queued) [.call a (.socketKick .queued)] trivial
    (List.forall_mem_singleton.mpr (hown _))
  have hsockname := fun isLocal => hall (.openSocket .stream none .queued)
    [.call a (.getsockname isLocal)] trivial (List.forall_mem_singleton.mpr (hown _))
  have hconnected := fun selector => hall (.openSocket .stream (some selector) .queued)
    [.call a (.select selector), .call a .isConnected] trivial
    (List.forall_mem_cons.mpr ⟨hown _, List.forall_mem_singleton.mpr (hown _)⟩)
  simp only [IndexState.observe_marks hs, IndexState.observe_marks hunused] at hmarks
  simp only [IndexState.observe_kick hs, IndexState.observe_kick hunused] at hkick
  simp only [IndexState.observe_sockname hs, IndexState.observe_sockname hunused] at hsockname
  simp only [IndexState.observe_connected hs, IndexState.observe_connected hunused]
    at hconnected
  have hflags : s.core.writeReadyToApp = false ∧ s.core.readReadyToApp = false := by
    revert hmarks
    cases s.core.writeReadyToApp <;> cases s.core.readReadyToApp <;>
      simp [IndexState.unused, IndexCore.unused]
  have hdone : s.core.writeDoneFromApp = false := by
    revert hkick
    cases s.core.writeDoneFromApp <;> simp [IndexState.unused, IndexCore.unused]
  have hname : ∀ isLocal, getsockname s.localAddr (s.descr a) isLocal = (0, 0) := by
    intro isLocal
    have heq := hsockname isLocal
    simp only [Option.some.injEq, List.cons.injEq, Observation.sockname.injEq, and_true] at heq
    rw [heq]
    cases isLocal <;> rfl
  have hlocal := hname true
  have hremote := hname false
  have hzero : s.localAddr.1 = 0 := by
    by_contra hne
    simp only [getsockname, if_true, ne_eq, hne, not_false_eq_true] at hlocal
    rw [hlocal] at hne
    exact hne rfl
  have hquietEvent : ∀ selector, (s.descr a).anyEventReceived = false ∧
      s.core.ready selector = [] := by
    intro selector
    have heq := hconnected selector
    simpa [IndexState.unused, IndexCore.unused, LocalDescr.initial] using heq
  simp only [getsockname, if_true, hzero, ne_eq, not_true_eq_false, if_false] at hlocal
  simp only [getsockname, Bool.false_eq_true, if_false] at hremote
  exact
    { readReadyToApp := hflags.2
      writeReadyToApp := hflags.1
      writeDoneFromApp := hdone
      localIpaddr := hzero
      anyEventReceived := (hquietEvent 0).1
      localAddr := hlocal
      remoteAddr := hremote
      ready := fun selector => (hquietEvent selector).2 }

end IndexState

/-- **A recycled index.**  After any history that ends with CLOSE, the next owner observes in every
continuation what it would observe on an index that was never used, exactly when the flags, the
addresses, `any_event_received` and the ready rings are clean. -/
theorem recycled_unused_iff {s : IndexState} (hreach : indexMachine.Reachable s)
    (hfree : s.core.free = true) (a : ℕ) :
    (∀ call rest, IndexCall.Takes call → (∀ x ∈ rest, IndexStep.By a x) →
      s.observe (.call a call :: rest) =
        (IndexState.unused s.core.mem).observe (.call a call :: rest)) ↔ s.Clean a := by
  have hinv := index_vacated hreach
  have hs : s.core = s.core.vacated := hinv.free hfree
  have hquiet : (s.descr a).Quiet := by
    apply hinv.quiet
    rw [hinv.holder_of_free hfree]
    exact nofun
  constructor
  · exact fun hall => IndexState.clean_of_observe hs hall
  · intro hclean call rest _ hrest
    have hsame := hclean.sameFor hs hquiet
    exact hsame.observe_eq (List.forall_mem_cons.mpr ⟨rfl, hrest⟩)

/-- A process opens the index, sends and kicks without a selector, and closes it. -/
def plainUse : List IndexStep :=
  [.call 0 (.openSocket .stream none .queued), .service (.processCommands {}),
    .call 0 (.send 1), .call 0 (.socketKick .queued),
    .service (.processCommands { taken := 1 }), .call 0 (.close .queued),
    .service (.processCommands {})]

/-- After it the same process finds the index as new. -/
theorem recycled_unused_plain :
    ∃ s, indexMachine.run plainUse = some s ∧ s.core.free = true ∧
      ∀ call rest, IndexCall.Takes call → (∀ x ∈ rest, IndexStep.By 0 x) →
        s.observe (.call 0 call :: rest) =
          (IndexState.unused s.core.mem).observe (.call 0 call :: rest) := by
  have hrun : indexMachine.run plainUse = some _ := rfl
  exact ⟨_, hrun, rfl, (recycled_unused_iff (Machine.reachable_of_run _ hrun) rfl 0).mpr
    ⟨rfl, rfl, rfl, rfl, rfl, rfl, rfl, fun _ => rfl⟩⟩

/-- A process opens the index on a selector, is told that it is ready, and closes it. -/
def selectedUse : List IndexStep :=
  [.call 0 (.openSocket .stream none .queued), .service (.processCommands {}),
    .call 0 (.setSocketSelect (some 0) .queued), .service (.processCommands {}),
    .call 0 (.close .queued), .service (.processCommands {})]

/-- **Stale flags silence the next owner.**  It is told nothing where the first owner was told that
it may read and write. -/
theorem recycled_index_silent :
    ∃ s, indexMachine.run selectedUse = some s ∧ s.core.free = true ∧
      s.observe (selectedUse.take 4) = some [] ∧
      (IndexState.unused s.core.mem).observe (selectedUse.take 4) =
        some [.posted 0 .writable, .posted 0 .readable] :=
  ⟨_, rfl, rfl, rfl, rfl⟩

end IpAugenblick
