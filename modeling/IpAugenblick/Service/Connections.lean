/-
# Connection slots are conserved

The free ring holds one index less than there are slots, so the last slot is never in
it.  A slot of the others is in the ring, on its way to be bound, or bound; and a slot
that is bound, or about to be, belongs to a client or has a CLOSE after it.  Slots are
lost where a call has taken one and finds no command buffer or a full command ring, where
the service cannot create the socket, and where a CLOSE is not queued.
-/

import IpAugenblick.Service.Hands

namespace IpAugenblick

open Lib

section Commands

variable {s t : ServiceState}

/-- The commands that neither bind nor free a slot. -/
theorem sameSlots_processCommand (o : Answers) {cmd : Command} (hopens : cmd.opens = none)
    (hclose : ∀ i, cmd ≠ .close i) : Outcome.Keeps (SameSlots s) (s.processCommand o cmd) := by
  cases cmd with
  | openSocket i type parent => cases hopens
  | listen i => exact (sameHands_appGlueV4Listen s _ o.listens).mono fun _ ht => ht.toSameSlots
  | close i => exact absurd rfl (hclose i)
  | setSocketRing i k => cases hopens
  | setSocketSelect i select =>
      exact (sameHands_processSelect o i select).mono fun _ ht => ht.toSameSlots
  | decline k =>
      refine (sameSlots_userFlushRxTx s k).bind (fun _ ht => ht) fun t ht => ?_
      exact ht.trans (sameSlots.appGlueCloseSocket t k o.waiting)
  | _ => exact sameSlots.processLocal o rfl

/-- Slot `i` was bound, to the socket that the command carries if it carries one, and nothing
else happened to the slots. -/
def Binds (s t : ServiceState) (i : ℕ) (descr : Option ℕ) : Prop :=
  ∃ d : Satelite, d.socket ≠ none ∧ (∀ k ∈ descr, d.socket = some k) ∧
    SameSlots (s.setSatelite i d) t

/-- The commands that bind a slot. -/
theorem binds_processCommand (o : Answers) {cmd : Command} {i : ℕ} (hopens : cmd.opens = some i)
    (hcreated : ∀ i type parent, cmd = .openSocket i type parent → o.created = true) :
    Outcome.Keeps (fun t => Binds s t i cmd.descr) (s.processCommand o cmd) := by
  cases cmd with
  | openSocket j type parent =>
      obtain rfl := Option.some.inj hopens
      unfold ServiceState.processCommand
      dsimp only
      rw [if_pos (hcreated j type parent rfl)]
      obtain ⟨hcommands, hclients, hfree, hsocket, hlost⟩ :=
        (sameHands_appGlueCreateSocket s type o.writeable).toSameSlots
      refine ⟨⟨some s.next, some j, parent⟩, by simp, by simp [Command.descr], hcommands, hclients,
        hfree, fun l => ?_, hlost⟩
      by_cases hl : l = j
      · subst hl
        simp [ServiceState.setSatelite, ServiceState.call, ServiceState.appGlueCreateSocket]
      · simp only [ServiceState.setSatelite, ServiceState.call, Function.update_of_ne hl]
        exact hsocket l
  | setSocketRing j k =>
      obtain rfl := Option.some.inj hopens
      unfold ServiceState.processCommand
      refine (sameSlots.userDataAvailableCbk _ _ o.available).mono fun t ht =>
        ⟨{ s.satelite j with socket := some k, ringsetIdx := some j }, by simp, fun _ hk => hk, ?_⟩
      obtain ⟨hcommands, hclients, hfree, hsocket, hlost⟩ := ht
      exact ⟨hcommands, hclients, hfree, hsocket, hlost⟩
  | _ => cases hopens

/-- Slot `i` was given up, and nothing else happened to the slots. -/
def Frees (s t : ServiceState) (i : ℕ) : Prop :=
  SameSlots { s.setSatelite i .empty with
    freeConnectionsRing := (s.freeConnectionsRing.enqueueBulk connectionPoolSize [i]).2 } t

/-- Socket `k` was closed. -/
def ServiceState.Closed (s : ServiceState) (k : ℕ) : Prop :=
  (s.sockets k).released = true ∧ (s.sockets k).skState ≠ .listen

theorem closed_kernelClose (s : ServiceState) (k : ℕ) : (s.kernelClose k).Closed k := by
  refine ⟨?_, skState_kernelClose s k⟩
  simp [ServiceState.kernelClose]

/-- CLOSE. -/
theorem frees_processClose (o : Answers) (i : ℕ) :
    ∃ t, s.processCommand o (.close i) = .ok t ∧
      ((s.satelite i).socket = none ∧ t = s ∨
        ∃ k, (s.satelite i).socket = some k ∧ t.Closed k ∧ Frees s t i) := by
  cases hk : (s.satelite i).socket with
  | none =>
      refine ⟨s, ?_, .inl ⟨rfl, rfl⟩⟩
      unfold ServiceState.processCommand
      dsimp only
      rw [hk]
  | some k =>
      obtain ⟨t, ht, hslots, -⟩ := userFlushRxTx_spec s k
      have hclosed := hslots.trans (sameSlots.appGlueCloseSocket t k o.waiting)
      unfold ServiceState.processCommand
      dsimp only
      rw [hk]
      dsimp only
      rw [ht]
      refine ⟨_, rfl, .inr ⟨k, rfl, closed_kernelClose _ k, ?_⟩⟩
      refine ⟨hclosed.commandRing, hclosed.clients, ?_, fun j => ?_, hclosed.lostSlots⟩
      · show (Ring.enqueueBulk _ _ _).2 = (Ring.enqueueBulk _ _ _).2
        congr 2
        exact hclosed.free
      · by_cases hj : j = i
        · subst hj
          simp [ServiceState.setSatelite]
        · simp only [ServiceState.setSatelite, Function.update_of_ne hj]
          exact hclosed.socket j

end Commands

/-- Slot `i` belongs to a client, or one of the commands `cmds` or a client that is about to
queue a command closes it. -/
def Owned (s : ServiceState) (i : ℕ) (cmds : List CmdBuf) : Prop :=
  (∃ a, (s.clients a).handle i = true) ∨ (∃ c ∈ cmds, c.cmd = .close i) ∨
    ∃ a c, (s.clients a).pc = .issuing c ∧ c.cmd = .close i

/-- No slot but the last is lost, and no slot is in use that nobody will close. -/
structure SlotsKept (s : ServiceState) : Prop where
  slots : Lib.Conserved (slotsHeld s) (· < connectionPoolSize - 1)
  bound : ∀ i, (s.satelite i).socket ≠ none → Owned s i s.commandRing.items
  queued : ∀ earlier c later, s.commandRing.items = earlier ++ c :: later →
    ∀ i ∈ c.cmd.opens, Owned s i later
  lost : s.lostSlots = []

section Service

variable {s t : ServiceState}

theorem Owned.mono {i : ℕ} {cmds cmds' : List CmdBuf} (h : Owned s i cmds)
    (hclients : t.clients = s.clients) (hcmds : ∀ c ∈ cmds, c.cmd = .close i → c ∈ cmds') :
    Owned t i cmds' := by
  unfold Owned
  rw [hclients]
  refine h.imp_right fun h => h.imp_left ?_
  rintro ⟨c, hc, hclose⟩
  exact ⟨c, hcmds c hc hclose, hclose⟩

theorem slotsHeld_congr (hsame : SameSlots s t) : slotsHeld t = slotsHeld s := by
  funext holder
  cases holder with
  | free => simp only [slotsHeld, hsame.free]
  | command => simp only [slotsHeld, hsame.commandRing]
  | client a => simp only [slotsHeld, hsame.clients]
  | bound i => simp only [slotsHeld, hsame.socket]

theorem SlotsKept.congr (h : SlotsKept s) (hsame : SameSlots s t) : SlotsKept t where
  slots := slotsHeld_congr hsame ▸ h.slots
  bound i hi := by
    rw [hsame.socket] at hi
    rw [hsame.commandRing]
    exact (h.bound i hi).mono hsame.clients fun _ hc _ => hc
  queued earlier c later hitems i hi := by
    rw [hsame.commandRing] at hitems
    exact (h.queued earlier c later hitems i hi).mono hsame.clients fun _ hc _ => hc
  lost := hsame.lostSlots.trans h.lost

/-- What the commands behind the first one open has an owner. -/
theorem SlotsKept.queued_tail (h : SlotsKept s) {c : CmdBuf} {rest : List CmdBuf}
    (hitems : s.commandRing.items = c :: rest) (hclients : t.clients = s.clients)
    (earlier : List CmdBuf) (c' : CmdBuf) (later : List CmdBuf)
    (hrest : rest = earlier ++ c' :: later) : ∀ i ∈ c'.cmd.opens, Owned t i later := by
  intro i hi
  refine (h.queued (c :: earlier) c' later ?_ i hi).mono hclients fun _ hc _ => hc
  rw [hitems, hrest]
  rfl

/-- A command is taken that neither binds nor frees a slot. -/
theorem SlotsKept.dequeued (h : SlotsKept s) {c : CmdBuf} {ring : Ring CmdBuf commandRingCapacity}
    (hitems : s.commandRing.items = c :: ring.items) (hopens : c.cmd.opens = none)
    (hclose : ∀ i, c.cmd = .close i → (s.satelite i).socket = none)
    (hsame : SameSlots { s with commandRing := ring } t) : SlotsKept t := by
  refine SlotsKept.congr (s := { s with commandRing := ring })
    ⟨?_, fun i hi => ?_, ?_, h.lost⟩ hsame
  · refine h.slots.same fun holder => ?_
    cases holder with
    | command => simp [slotsHeld, hitems, hopens]
    | _ => exact List.Perm.refl _
  · refine (h.bound i hi).mono rfl fun c' hc' hcmd => ?_
    rw [hitems] at hc'
    rcases List.mem_cons.mp hc' with rfl | hc'
    · exact absurd (hclose i hcmd) hi
    · exact hc'
  · exact h.queued_tail hitems rfl

/-- A command is taken that binds its slot. -/
theorem SlotsKept.binds (h : SlotsKept s) {c : CmdBuf} {ring : Ring CmdBuf commandRingCapacity}
    (hitems : s.commandRing.items = c :: ring.items) {i : ℕ} (hopens : c.cmd.opens = some i)
    (hbinds : Binds { s with commandRing := ring } t i c.cmd.descr) : SlotsKept t := by
  obtain ⟨d, hd, -, hsame⟩ := hbinds
  have hfirst : slotsHeld s .command = i :: ring.items.filterMap (·.cmd.opens) := by
    simp [slotsHeld, hitems, hopens]
  have hempty : slotsHeld s (.bound i) = [] := by
    cases hsocket : (s.satelite i).socket with
    | none => simp [slotsHeld, hsocket]
    | some k =>
        have hmem : i ∈ slotsHeld s (.bound i) := by
          rw [slotsHeld_of_socket hsocket]
          exact List.mem_singleton_self i
        have hboth := h.slots.unique hmem (by rw [hfirst]; exact List.mem_cons_self)
        cases hboth
  have hself : slotsHeld (ServiceState.setSatelite { s with commandRing := ring } i d)
      (.bound i) = [i] := by
    cases hsocket : d.socket with
    | none => exact absurd hsocket hd
    | some k => simp [slotsHeld, ServiceState.setSatelite, hsocket]
  refine SlotsKept.congr (s := ServiceState.setSatelite { s with commandRing := ring } i d)
    ⟨?_, fun j hj => ?_, ?_, h.lost⟩ hsame
  · refine h.slots.hand (i := .command) (j := .bound i) (a := i) (by simp) ?_ ?_
      fun holder hcommand hbound => ?_
    · rw [hfirst]
      exact List.Perm.refl _
    · rw [hself, hempty]
    · cases holder with
      | bound j =>
          have hj : j ≠ i := fun hj => hbound (by rw [hj])
          simp [slotsHeld, ServiceState.setSatelite, hj]
      | command => exact absurd rfl hcommand
      | _ => rfl
  · by_cases hji : j = i
    · subst hji
      refine (h.queued [] c ring.items (by rw [hitems]; rfl) j hopens).mono rfl fun _ hc _ => hc
    · simp only [ServiceState.setSatelite, Function.update_of_ne hji] at hj
      refine (h.bound j hj).mono rfl fun c' hc' hcmd => ?_
      rw [hitems] at hc'
      rcases List.mem_cons.mp hc' with rfl | hc'
      · rw [hcmd] at hopens
        cases hopens
      · exact hc'
  · exact h.queued_tail hitems rfl

/-- The free ring has room for a slot that is not in it. -/
theorem SlotsKept.room (h : SlotsKept s) {i : ℕ} (hi : i ∈ slotsHeld s (.bound i)) :
    ¬ s.freeConnectionsRing.freeCount < 1 := by
  have hlast := (h.slots.all i).mp ⟨_, hi⟩
  have hnot : i ∉ s.freeConnectionsRing.items := by
    intro hfree
    have hboth := h.slots.unique (i := .free) hfree hi
    cases hboth
  have hsub : i :: s.freeConnectionsRing.items ⊆ List.range (connectionPoolSize - 1) := by
    intro j hj
    rw [List.mem_range]
    rcases List.mem_cons.mp hj with rfl | hj
    · exact hlast
    · exact (h.slots.all j).mp ⟨.free, hj⟩
  have hnodup : (i :: s.freeConnectionsRing.items).Nodup :=
    List.nodup_cons.mpr ⟨hnot, h.slots.nodup .free⟩
  have hlength := (hnodup.subperm hsub).length_le
  rw [List.length_cons, List.length_range] at hlength
  unfold Ring.freeCount
  omega

/-- A CLOSE is taken that frees its slot. -/
theorem SlotsKept.frees (h : SlotsKept s) {c : CmdBuf} {ring : Ring CmdBuf commandRingCapacity}
    (hitems : s.commandRing.items = c :: ring.items) {i : ℕ} (hcmd : c.cmd = .close i)
    (hbound : (s.satelite i).socket ≠ none)
    (hfrees : Frees { s with commandRing := ring } t i) : SlotsKept t := by
  have hfirst : slotsHeld s (.bound i) = [i] := by
    cases hsocket : (s.satelite i).socket with
    | none => exact absurd hsocket hbound
    | some k => exact slotsHeld_of_socket hsocket
  have hroom := h.room (i := i) (by rw [hfirst]; exact List.mem_singleton_self i)
  refine SlotsKept.congr ?_ hfrees
  refine ⟨?_, fun j hj => ?_, ?_, h.lost⟩
  · refine h.slots.hand (i := .bound i) (j := .free) (a := i) (by simp) ?_ ?_
      fun holder hholder hfree => ?_
    · rw [hfirst]
      simp [slotsHeld, ServiceState.setSatelite, Satelite.empty]
    · simp only [slotsHeld, Ring.items_enqueueBulk, List.length_singleton, if_neg hroom]
      exact List.perm_append_singleton _ _
    · cases holder with
      | bound j =>
          have hj : j ≠ i := fun hj => hholder (by rw [hj])
          simp [slotsHeld, ServiceState.setSatelite, hj]
      | command => simp [slotsHeld, ServiceState.setSatelite, hitems, hcmd, Command.opens]
      | free => exact absurd rfl hfree
      | client a => rfl
  · have hji : j ≠ i := by
      rintro rfl
      exact hj (by simp [ServiceState.setSatelite, Satelite.empty])
    simp only [ServiceState.setSatelite, Function.update_of_ne hji] at hj
    refine (h.bound j hj).mono rfl fun c' hc' hcmd' => ?_
    rw [hitems] at hc'
    rcases List.mem_cons.mp hc' with rfl | hc'
    · rw [hcmd] at hcmd'
      exact absurd (Command.close.inj hcmd').symm hji
    · exact hc'
  · exact h.queued_tail hitems rfl

/-- `process_commands`, when the socket of an OPEN_SOCKET can be created. -/
theorem SlotsKept.processCommands (h : SlotsKept s) (o : Answers)
    (hcreated : ∀ c ∈ s.commandRing.items.head?, ∀ i type parent,
      c.cmd = .openSocket i type parent → o.created = true) :
    Outcome.Keeps SlotsKept (s.processCommands o) := by
  unfold ServiceState.processCommands
  cases hring : s.commandRing.dequeue with
  | none => exact h
  | some taken =>
      obtain ⟨c, ring⟩ := taken
      have hitems := (Ring.dequeue_eq_some_iff _ _ _).mp hring
      have hcommand : Outcome.Keeps SlotsKept
          (ServiceState.processCommand { s with commandRing := ring } o c.cmd) := by
        cases hopens : c.cmd.opens with
        | some i =>
            have hok := hcreated c (by rw [hitems]; rfl)
            exact (binds_processCommand o hopens hok).mono fun t ht => h.binds hitems hopens ht
        | none =>
            by_cases hclose : ∃ i, c.cmd = .close i
            · obtain ⟨i, hcmd⟩ := hclose
              obtain ⟨t, ht, hcases⟩ := frees_processClose
                (s := { s with commandRing := ring }) o i
              rw [hcmd, ht]
              rcases hcases with ⟨hnone, rfl⟩ | ⟨k, hk, -, hfrees⟩
              · refine h.dequeued hitems hopens (fun j hj => ?_) (.refl _)
                rw [hcmd] at hj
                obtain rfl := Command.close.inj hj
                exact hnone
              · refine h.frees hitems hcmd (fun hnone => ?_) hfrees
                rw [hnone] at hk
                cases hk
            · have hne : ∀ i, c.cmd ≠ .close i := fun i hi => hclose ⟨i, hi⟩
              exact (sameSlots_processCommand o hopens hne).mono fun t ht =>
                h.dequeued hitems hopens (fun i hi => absurd hi (hne i)) ht
      exact hcommand.bind (fun _ ht => ht) fun t ht => ht.congr ⟨rfl, rfl, rfl, fun _ => rfl, rfl⟩

/-- A round of `user_on_accept` has nothing to do with slots. -/
theorem sameSlots_acceptRound (s : ServiceState) (k : ℕ) :
    Outcome.Keeps (SameSlots s) (s.acceptRound k) := by
  rw [acceptRound_eq]
  cases s.freeCommandPool with
  | nil => exact ⟨rfl, rfl, rfl, fun _ => rfl, rfl⟩
  | cons b pool =>
      dsimp only
      cases (s.sockets k).userData with
      | none => exact ⟨rfl, rfl, rfl, fun _ => rfl, rfl⟩
      | some i =>
          show SameSlots s (ServiceState.ipaugenblickPostAccepted _ b s.next i)
          unfold ServiceState.ipaugenblickPostAccepted
          split
          · exact ⟨rfl, rfl, rfl, fun _ => rfl, rfl⟩
          · exact ⟨rfl, rfl, rfl, fun _ => rfl, rfl⟩

/-- The guard of the runs that lose no slot: there is a command buffer for an open and for
the close of an own slot, the command ring has room for the commands that open or close one,
and the service can create the socket. -/
def connectionOk (s : ServiceState) : ServiceStep → Prop
  | .service o => s.pc = .commands → ∀ c ∈ s.commandRing.items.head?, ∀ i type parent,
      c.cmd = .openSocket i type parent → o.created = true
  | .openCommand _ => s.freeCommandPool ≠ []
  | .getCommand a cmd =>
      ∀ i, cmd = .close i → (s.clients a).handle i = true → s.freeCommandPool ≠ []
  | .post a => ∀ c, (s.clients a).pc = .issuing c →
      (c.cmd.opens ≠ none ∨ ∃ i, c.cmd = .close i) → 0 < s.commandRing.freeCount
  | _ => True

/-- A step of the main loop. -/
theorem SlotsKept.serviceStep (h : SlotsKept s) (o : Answers) (hok : connectionOk s (.service o)) :
    Outcome.Keeps SlotsKept (s.serviceStep o) := by
  by_cases hcommands : s.pc = .commands
  · unfold ServiceState.serviceStep
    rw [hcommands]
    refine (h.processCommands o (hok hcommands)).bind (fun _ ht => ht) fun t ht => ?_
    show SlotsKept (if _ then _ else _)
    split
    · exact ht.congr ⟨rfl, rfl, rfl, fun _ => rfl, rfl⟩
    · exact ht.congr ⟨rfl, rfl, rfl, fun _ => rfl, rfl⟩
  · by_cases haccepting : s.pc = .accepting
    · unfold ServiceState.serviceStep
      rw [haccepting]
      dsimp only
      split
      · exact h.congr ⟨rfl, rfl, rfl, fun _ => rfl, rfl⟩
      next k rest _ =>
          have haccept := userOnAccept_keeps (P := SameSlots s) (.refl s)
            (fun t ht _ => (sameSlots_acceptRound t k).mono fun u hu => ht.trans hu) o.waiting
          refine haccept.bind (fun t ht => h.congr ht) fun t ht => ?_
          exact (h.congr ht).congr
            ((sameSlots.remove t .accept k).trans (sameSlots.hold _ k _))
    · exact (sameSlots.serviceStep o hcommands haccepting
        fun _ k _ => sameSlots_userFlushRxTx s k).mono fun t ht => h.congr ht

end Service

section Clients

variable {s t : ServiceState} {a : ℕ}

/-- What a client owns does not change when it moves on, unless it gives a slot up or drops
a CLOSE. -/
theorem Owned.setClient {i : ℕ} {cmds : List CmdBuf} (h : Owned s i cmds) {c : Client}
    (hhandle : (s.clients a).handle i = true → c.handle i = true)
    (hpc : ∀ b, (s.clients a).pc = .issuing b → b.cmd = .close i → c.pc = .issuing b) :
    Owned (s.setClient a c) i cmds := by
  rcases h with ⟨a', ha'⟩ | hcmds | ⟨a', b, hissuing, hclose⟩
  · refine .inl ⟨a', ?_⟩
    by_cases haa : a' = a
    · subst haa
      simpa [clients_setClient] using hhandle ha'
    · simpa [clients_setClient, haa] using ha'
  · exact .inr (.inl hcmds)
  · refine .inr (.inr ⟨a', b, ?_, hclose⟩)
    by_cases haa : a' = a
    · subst haa
      simpa [clients_setClient] using hpc b hissuing hclose
    · simpa [clients_setClient, haa] using hissuing

/-- A client moves on with the same slots. -/
theorem SlotsKept.setClient (h : SlotsKept s) {c : Client}
    (hslot : c.pc.slot = (s.clients a).pc.slot)
    (howned : ∀ i cmds, Owned s i cmds → Owned (s.setClient a c) i cmds) :
    SlotsKept (s.setClient a c) where
  slots := by
    refine h.slots.same fun holder => ?_
    cases holder with
    | client a' =>
        by_cases haa : a' = a
        · subst haa
          simp [slotsHeld, clients_setClient, hslot]
        · simp [slotsHeld, clients_setClient, haa]
    | _ => exact List.Perm.refl _
  bound i hi := howned i _ (h.bound i hi)
  queued earlier b later hitems i hi := howned i _ (h.queued earlier b later hitems i hi)
  lost := h.lost

/-- A client takes a free slot. -/
theorem SlotsKept.takeFree (h : SlotsKept s) {i : ℕ} {ring : Ring ℕ (connectionPoolSize - 1)}
    {pc : ClientPc} (hitems : s.freeConnectionsRing.items = i :: ring.items)
    (hbefore : (s.clients a).pc.slot = none)
    (hidle : ∀ b, (s.clients a).pc ≠ .issuing b) (hpc : pc.slot = some i) :
    SlotsKept (ServiceState.setClientPc { s with freeConnectionsRing := ring } a pc) := by
  have howned : ∀ j cmds, Owned s j cmds →
      Owned (ServiceState.setClientPc { s with freeConnectionsRing := ring } a pc) j cmds :=
    fun j cmds hj => Owned.setClient (s := { s with freeConnectionsRing := ring }) hj id
      fun b hb => absurd hb (hidle b)
  refine ⟨?_, fun j hj => howned j _ (h.bound j hj),
    fun earlier b later hsplit j hj => howned j _ (h.queued earlier b later hsplit j hj), h.lost⟩
  refine h.slots.hand (i := .free) (j := .client a) (a := i) (by simp) ?_ ?_
    fun holder hfree hclient => ?_
  · simp only [slotsHeld, hitems, ServiceState.setClientPc, ServiceState.setClient, List.Perm.refl]
  · simp [slotsHeld, ServiceState.setClientPc, clients_setClient, hbefore, hpc]
  · cases holder with
    | client a' =>
        have ha : a' ≠ a := fun ha => hclient (by rw [ha])
        simp [slotsHeld, ServiceState.setClientPc, clients_setClient, ha]
    | free => exact absurd rfl hfree
    | _ => rfl

/-- What the client does with its handles when it gets a command buffer. -/
theorem SlotsKept.getCommand (h : SlotsKept s) {b : ℕ} {cmd : Command} (hplain : cmd.plain = true)
    (hidle : (s.clients a).pc = .idle) :
    SlotsKept ((s.calledWith a cmd).setClientPc a (.issuing ⟨b, cmd⟩)) := by
  have hopens := (Command.plain_spec hplain).2
  by_cases hclose : ∃ i, cmd = .close i
  · obtain ⟨i, rfl⟩ := hclose
    have hset : (s.calledWith a (.close i)).setClientPc a (.issuing ⟨b, .close i⟩) =
        s.setClient a ⟨.issuing ⟨b, .close i⟩, Function.update (s.clients a).handle i false⟩ := by
      simp [ServiceState.calledWith, ServiceState.setClientPc, ServiceState.setClient]
    rw [hset]
    refine h.setClient ?_ fun j cmds hj => ?_
    · rw [hidle]
      rfl
    · by_cases hji : j = i
      · subst hji
        refine .inr (.inr ⟨a, ⟨b, .close j⟩, ?_, rfl⟩)
        simp [clients_setClient]
      · refine hj.setClient (fun hhandle => ?_) fun b' hb' => ?_
        · simpa [hji] using hhandle
        · rw [hidle] at hb'
          cases hb'
  · have hcalled : s.calledWith a cmd = s := by
      cases cmd with
      | close i => exact absurd ⟨i, rfl⟩ hclose
      | _ => rfl
    rw [hcalled]
    refine h.setClient ?_ fun j cmds hj => hj.setClient id fun b' hb' => ?_
    · rw [hidle]
      exact hopens
    · rw [hidle] at hb'
      cases hb'

/-- The end of a call that queued its command, as one change of the client. -/
theorem posted_eq (s : ServiceState) (a : ℕ) (c : CmdBuf) (ring : Ring CmdBuf commandRingCapacity) :
    (s.setClientPc a .idle).posted a c ring =
      { s.setClient a ⟨.idle, c.cmd.opens.elim (s.clients a).handle fun i =>
          Function.update (s.clients a).handle i true⟩ with commandRing := ring } := by
  unfold ServiceState.posted
  dsimp only
  cases c.cmd.opens with
  | none => rfl
  | some i => simp [ServiceState.setClientPc, ServiceState.setClient]

/-- A client queues its command: what it opens is its own from now on. -/
theorem SlotsKept.posted (h : SlotsKept s) {c : CmdBuf} (hpc : (s.clients a).pc = .issuing c)
    {ring : Ring CmdBuf commandRingCapacity} (hitems : ring.items = s.commandRing.items ++ [c]) :
    SlotsKept ((s.setClientPc a .idle).posted a c ring) := by
  rw [posted_eq]
  generalize hhandle : (c.cmd.opens.elim (s.clients a).handle fun i =>
    Function.update (s.clients a).handle i true) = handle
  have hkept : ∀ j, (s.clients a).handle j = true → handle j = true := by
    intro j hj
    rw [← hhandle]
    cases c.cmd.opens with
    | none => exact hj
    | some i =>
        by_cases hji : j = i
        · subst hji
          simp
        · simpa [hji] using hj
  have hopened : ∀ i ∈ c.cmd.opens, handle i = true := by
    intro i hi
    rw [← hhandle, Option.mem_def.mp hi]
    simp
  have howned : ∀ j cmds, Owned s j cmds →
      Owned { s.setClient a ⟨.idle, handle⟩ with commandRing := ring } j (cmds ++ [c]) := by
    rintro j cmds (⟨a', ha'⟩ | ⟨b, hb, hclose⟩ | ⟨a', b, hissuing, hclose⟩)
    · refine .inl ⟨a', ?_⟩
      by_cases haa : a' = a
      · subst haa
        simpa [clients_setClient] using hkept j ha'
      · simpa [clients_setClient, haa] using ha'
    · exact .inr (.inl ⟨b, List.mem_append_left _ hb, hclose⟩)
    · by_cases haa : a' = a
      · subst haa
        rw [hpc] at hissuing
        obtain rfl := ClientPc.issuing.inj hissuing
        exact .inr (.inl ⟨c, by simp, hclose⟩)
      · refine .inr (.inr ⟨a', b, ?_, hclose⟩)
        simpa [clients_setClient, haa] using hissuing
  refine ⟨?_, fun j hj => ?_, fun earlier b later hsplit j hj => ?_, h.lost⟩
  · cases hopens : c.cmd.opens with
    | none =>
        refine h.slots.same fun holder => ?_
        cases holder with
        | client a' =>
            by_cases haa : a' = a
            · subst haa
              simp [slotsHeld, clients_setClient, hpc, ClientPc.slot, hopens]
            · simp [slotsHeld, clients_setClient, haa]
        | command => simp [slotsHeld, hitems, hopens]
        | _ => exact List.Perm.refl _
    | some i =>
        refine h.slots.hand (i := .client a) (j := .command) (a := i) (by simp) ?_ ?_
          fun holder hclient hcommand => ?_
        · simp [slotsHeld, clients_setClient, hpc, ClientPc.slot, hopens]
        · simp only [slotsHeld, hitems, List.filterMap_append]
          simp [hopens]
        · cases holder with
          | client a' =>
              have ha : a' ≠ a := fun ha => hclient (by rw [ha])
              simp [slotsHeld, clients_setClient, ha]
          | command => exact absurd rfl hcommand
          | _ => rfl
  · show Owned _ j ring.items
    rw [hitems]
    exact howned j _ (h.bound j hj)
  · have hsplit' : s.commandRing.items ++ [c] = earlier ++ b :: later := hitems ▸ hsplit
    rcases List.eq_nil_or_concat later with rfl | ⟨later', last, rfl⟩
    · obtain ⟨-, hb⟩ := List.append_inj' hsplit' rfl
      obtain rfl := List.singleton_inj.mp hb
      refine .inl ⟨a, ?_⟩
      simpa [clients_setClient] using hopened j hj
    · rw [List.concat_eq_append, ← List.cons_append, ← List.append_assoc] at hsplit'
      obtain ⟨hfront, hlast⟩ := List.append_inj' hsplit' rfl
      obtain rfl := List.singleton_inj.mp hlast
      rw [List.concat_eq_append]
      exact howned j _ (h.queued earlier b later' hfront j hj)

/-- A client queues its command. -/
theorem SlotsKept.post (h : SlotsKept s) {c : CmdBuf} (hpc : (s.clients a).pc = .issuing c)
    (hroom : (c.cmd.opens ≠ none ∨ ∃ i, c.cmd = .close i) → 0 < s.commandRing.freeCount) :
    SlotsKept (s.post a c) := by
  unfold ServiceState.post
  dsimp only
  split
  next ring hfull =>
      have hnone : s.commandRing.freeCount = 0 := Ring.freeCount_of_nobufs hfull
      have hneither : ¬ (c.cmd.opens ≠ none ∨ ∃ i, c.cmd = .close i) :=
        fun hcmd => absurd hnone (Nat.ne_of_gt (hroom hcmd))
      rw [not_or, not_not] at hneither
      have hidle : SlotsKept (s.setClientPc a .idle) := by
        refine h.setClient ?_ fun j cmds hj => hj.setClient id fun b hb hclose => ?_
        · rw [hpc]
          exact hneither.1.symm
        · rw [hpc] at hb
          obtain rfl := ClientPc.issuing.inj hb
          exact absurd ⟨j, hclose⟩ hneither.2
      unfold ServiceState.notPosted
      split
      · exact hidle
      · refine hidle.congr ⟨rfl, rfl, rfl, fun _ => rfl, ?_⟩
        simp [hneither.1]
  next code ring hcode hqueued =>
      exact h.posted hpc (Ring.items_of_queued hcode hqueued)

/-- A step of a client. -/
theorem SlotsKept.clientStep (h : SlotsKept s) {step : ServiceStep} (hok : connectionOk s step)
    (ht : s.clientStep step = some t) : SlotsKept t := by
  have hpool : ∀ pool, SlotsKept { s with freeCommandPool := pool } :=
    fun pool => h.congr ⟨rfl, rfl, rfl, fun _ => rfl, rfl⟩
  cases ServiceState.clientStep_move ht with
  | takeSlot hidle hfree => exact h.takeFree hfree (by rw [hidle]; rfl) (by simp [hidle]) rfl
  | lostSlot hpc hempty => exact absurd hempty hok
  | @openCommand a i buf type parent pool hpc _ =>
      refine (hpool pool).setClient ?_ fun j cmds hj => hj.setClient id fun b' hb' => ?_
      · show some i = (s.clients a).pc.slot
        rw [hpc]
        rfl
      · change (s.clients a).pc = _ at hb'
        rw [hpc] at hb'
        cases hb'
  | @calledOnly a cmd hplain hidle hempty =>
      unfold ServiceState.calledWith
      split
      next i =>
          have hnot : (s.clients a).handle i = false := by
            rw [← Bool.not_eq_true]
            exact fun hhandle => hok i rfl hhandle hempty
          refine h.setClient rfl fun j cmds hj =>
            hj.setClient (fun hhandle => ?_) fun b hb => ?_
          · have hji : j ≠ i := by
              rintro rfl
              rw [hnot] at hhandle
              cases hhandle
            simpa [hji] using hhandle
          · rw [hidle] at hb
            cases hb
      next => exact h
  | getCommand hplain hidle _ => exact (hpool _).getCommand hplain hidle
  | @acceptTake a i buf sock ring hidle hring =>
      have hsame : SlotsKept (s.setRxRing i ring) :=
        h.congr ⟨rfl, rfl, rfl, fun _ => rfl, rfl⟩
      refine hsame.setClient ?_ fun j cmds hj => hj.setClient id fun b' hb' => ?_
      · show none = (s.clients a).pc.slot
        rw [hidle]
        rfl
      · change (s.clients a).pc = _ at hb'
        rw [hidle] at hb'
        cases hb'
  | mbufTaken hring => exact h.congr ⟨rfl, rfl, rfl, fun _ => rfl, rfl⟩
  | decline hpc =>
      refine h.setClient ?_ fun j cmds hj => hj.setClient id fun b' hb' => ?_
      · rw [hpc]
        rfl
      · rw [hpc] at hb'
        cases hb'
  | acceptSlot hpc hfree => exact h.takeFree hfree (by rw [hpc]; rfl) (by simp [hpc]) rfl
  | post hpc => exact h.post hpc (hok _ hpc)
  | dequeueRx hring => exact h.congr ⟨rfl, rfl, rfl, fun _ => rfl, rfl⟩

end Clients

theorem items_initialConnections :
    initialConnections.items = List.range (connectionPoolSize - 1) := by
  have hfree : (Ring.empty : Ring ℕ (connectionPoolSize - 1)).freeCount =
      connectionPoolSize - 1 := rfl
  unfold initialConnections Ring.enqueueBurst
  dsimp only
  rw [hfree, List.take_range, Ring.items_empty, List.nil_append]
  rfl

theorem slotsKept_init : SlotsKept serviceMachine.init where
  slots := by
    have hfree : slotsHeld serviceMachine.init .free = List.range (connectionPoolSize - 1) :=
      items_initialConnections
    have hother : ∀ holder, holder ≠ .free → slotsHeld serviceMachine.init holder = [] := by
      intro holder hne
      cases holder with
      | free => exact absurd rfl hne
      | _ => rfl
    refine ⟨?_, fun i => ⟨?_, fun hi => ⟨.free, ?_⟩⟩⟩
    · have hnone : Exclusive fun _ : SlotHolder => ([] : List ℕ) := .of_forall_nil fun _ => rfl
      have hnodup : (List.range (connectionPoolSize - 1)).Nodup := List.nodup_range
      refine hnone.giveAll hnodup ?_ hfree hother
      intro _ _ _
      exact List.not_mem_nil
    · rintro ⟨holder, hi⟩
      by_cases hholder : holder = .free
      · rw [hholder, hfree] at hi
        exact List.mem_range.mp hi
      · rw [hother holder hholder] at hi
        exact absurd hi List.not_mem_nil
    · rw [hfree]
      exact List.mem_range.mpr hi
  bound _ hi := absurd rfl hi
  queued earlier c later hitems := by
    have hnil : earlier ++ c :: later = [] := hitems.symm
    simp at hnil
  lost := rfl

theorem slotsKept_settle {r : Outcome} (h : r.Keeps SlotsKept) :
    SlotsKept (ServiceState.settle r) := by
  cases r with
  | ok s => exact h
  | error e => exact SlotsKept.congr h ⟨rfl, rfl, rfl, fun _ => rfl, rfl⟩

/-- **Step lemma.**  A guarded step loses no slot. -/
theorem slotsKept_step {s t : ServiceState} {a : ServiceStep} (h : SlotsKept s)
    (hok : connectionOk s a) (ht : serviceMachine.step s a = some t) : SlotsKept t := by
  simp only [serviceMachine] at ht
  split at ht
  next => cases ht
  next =>
      split at ht
      next e =>
          obtain ⟨r, hr, rfl⟩ := Option.map_eq_some_iff.mp ht
          exact slotsKept_settle ((sameSlots.stackEvent hr).mono fun t ht => h.congr ht)
      next o =>
          obtain rfl := Option.some.inj ht
          exact slotsKept_settle (h.serviceStep o hok)
      next => exact h.clientStep hok ht

/-- A command that opens or closes slot `i` is queued or about to be. -/
def InFlight (s : ServiceState) (i : ℕ) : Prop :=
  (∃ c ∈ s.commandRing.items, c.cmd.opens = some i ∨ c.cmd = .close i) ∨
    ∃ a, (s.clients a).pc.slot = some i ∨ ∃ c, (s.clients a).pc = .issuing c ∧ c.cmd = .close i

/-- Slot `i` is free, or a client's, or on its way. -/
def SlotAccounted (s : ServiceState) (i : ℕ) : Prop :=
  i ∈ s.freeConnectionsRing.items ∨ (∃ a, (s.clients a).handle i = true) ∨ InFlight s i

theorem Owned.slotAccounted {s : ServiceState} {i : ℕ} (h : Owned s i s.commandRing.items) :
    SlotAccounted s i := by
  rcases h with hhandle | ⟨c, hc, hclose⟩ | ⟨a, c, hpc, hclose⟩
  · exact .inr (.inl hhandle)
  · exact .inr (.inr (.inl ⟨c, hc, .inr hclose⟩))
  · exact .inr (.inr (.inr ⟨a, .inr ⟨c, hpc, hclose⟩⟩))

theorem SlotsKept.slotAccounted {s : ServiceState} (h : SlotsKept s) {i : ℕ}
    (hi : i < connectionPoolSize - 1) : SlotAccounted s i := by
  obtain ⟨holder, hmem⟩ := (h.slots.all i).mpr hi
  cases holder with
  | free => exact .inl hmem
  | command =>
      obtain ⟨c, hc, hopens⟩ := List.mem_filterMap.mp hmem
      exact .inr (.inr (.inl ⟨c, hc, .inl hopens⟩))
  | client a =>
      have hslot : (s.clients a).pc.slot = some i := by
        simpa [slotsHeld] using hmem
      exact .inr (.inr (.inr ⟨a, .inl hslot⟩))
  | bound j =>
      have hbound : i = j ∧ (s.satelite j).socket ≠ none := by
        cases hsocket : (s.satelite j).socket with
        | none => simp [slotsHeld, hsocket] at hmem
        | some k =>
            rw [slotsHeld_of_socket hsocket] at hmem
            exact ⟨List.mem_singleton.mp hmem, Option.some_ne_none k⟩
      obtain ⟨rfl, hbound⟩ := hbound
      exact (h.bound i hbound).slotAccounted

/-- **Connection slots are conserved.**  The service starts with every slot but the last in
the free ring.  In every run in which an open, an accept and a close get their command to the
service, and the service can create the socket, each of these slots is free, a client's or on
its way, and no call has failed with a slot in its hand. -/
theorem connection_slots_conserved {s : ServiceState}
    (hreach : serviceMachine.ReachableWhere connectionOk s) :
    (∀ i < connectionPoolSize, i ≠ connectionPoolSize - 1 →
      i ∈ serviceMachine.init.freeConnectionsRing.items ∧ SlotAccounted s i) ∧ s.lostSlots = [] := by
  have hkept : SlotsKept s := by
    refine serviceMachine.invariant_of_step slotsKept_init ?_ hreach
    intro s a t h hok hstep
    exact slotsKept_step h hok hstep
  refine ⟨fun i hi hlast => ?_, hkept.lost⟩
  have hlt : i < connectionPoolSize - 1 := by omega
  refine ⟨?_, hkept.slotAccounted hlt⟩
  show i ∈ initialConnections.items
  rw [items_initialConnections]
  exact List.mem_range.mpr hlt

/-- A guard that can be evaluated, in place of `connectionOk`. -/
def roomyOk (s : ServiceState) : ServiceStep → Prop
  | .service o => o.created = true
  | .openCommand _ => s.freeCommandPool ≠ []
  | .getCommand _ _ => s.freeCommandPool ≠ []
  | .post _ => 0 < s.commandRing.freeCount
  | _ => True

instance (s : ServiceState) : ∀ a, Decidable (roomyOk s a)
  | .service o => inferInstanceAs (Decidable (o.created = true))
  | .openCommand _ | .getCommand _ _ => inferInstanceAs (Decidable (s.freeCommandPool ≠ []))
  | .post _ => inferInstanceAs (Decidable (0 < s.commandRing.freeCount))
  | .stack _ | .takeSlot _ _ _ | .acceptTake _ _ | .acceptSlot _ | .dequeueRx _ =>
      .isTrue trivial

theorem connectionOk_of_roomyOk {s : ServiceState} {a : ServiceStep} (h : roomyOk s a) :
    connectionOk s a := by
  cases a with
  | service o => exact fun _ _ _ _ _ _ _ => h
  | openCommand a => exact h
  | getCommand a cmd => exact fun _ _ _ => h
  | post a => exact fun _ _ _ => h
  | _ => trivial

theorem connection_slots_conserved_read : ∃ s, serviceMachine.ReachableWhere connectionOk s ∧
    s.freeConnectionsRing.items.getLast? = some 0 ∧
      (∀ i < connectionPoolSize, i ≠ connectionPoolSize - 1 →
        i ∈ serviceMachine.init.freeConnectionsRing.items ∧ SlotAccounted s i) ∧
      s.lostSlots = [] := by
  have hrun : ((serviceMachine.restrict roomyOk).run readRun).map
      (fun s => s.freeConnectionsRing.items.getLast?) = some (some 0) := by decide +kernel
  obtain ⟨s, hs, hlast⟩ := Option.map_eq_some_iff.mp hrun
  have hreach := (serviceMachine.reachableWhere_of_run hs).mono fun _ _ => connectionOk_of_roomyOk
  exact ⟨s, hreach, hlast, connection_slots_conserved hreach⟩

/-- The ring of `IPAUGENBLICK_CONNECTION_POOL_SIZE` entries takes one index less, so the last
slot is nowhere from the start. -/
theorem last_connection_slot_unaccounted :
    serviceMachine.run [] = some initialService ∧ connectionPoolSize - 1 < connectionPoolSize ∧
      connectionPoolSize - 1 ∉ initialService.freeConnectionsRing.items ∧
        ¬ SlotAccounted initialService (connectionPoolSize - 1) := by
  have hfree : connectionPoolSize - 1 ∉ initialService.freeConnectionsRing.items := by
    show connectionPoolSize - 1 ∉ initialConnections.items
    rw [items_initialConnections]
    exact fun hmem => lt_irrefl _ (List.mem_range.mp hmem)
  refine ⟨rfl, by decide, hfree, ?_⟩
  rintro (hmem | ⟨a, ha⟩ | (⟨c, hc, _⟩ | ⟨a, ha | ⟨c, hc, _⟩⟩))
  · exact hfree hmem
  · cases ha
  · cases hc
  · cases ha
  · cases hc

end IpAugenblick
