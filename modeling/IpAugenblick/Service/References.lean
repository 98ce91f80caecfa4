/-
# A socket is closed once and not used afterwards

Two loops free sockets: `process_commands` (CLOSE, DECLINE) and the closed-list loop of
`process_rx_ready_sockets`.  The first takes the socket out of the lists of `app_glue.c`
and off its slot, but leaves it in the buffers-available list; the second takes it out of
the closed list only.  In the runs where neither leaves a reference behind, every call
into the stack is on a socket that is still there.
-/

import IpAugenblick.Service.Sockets

namespace IpAugenblick

open Lib

section Commands

variable {s : ServiceState}

/-- The command that the service takes: what it carries is then with nobody else. -/
theorem ServiceInv.dequeueCommand (h : ServiceInv s) {c : CmdBuf}
    {ring : Ring CmdBuf commandRingCapacity} (hitems : s.commandRing.items = c :: ring.items) :
    ServiceInv { s with commandRing := ring } ∧
      (∀ k ∈ c.cmd.descr, s.Live k ∧
        ∀ holder, k ∉ socketsHeld { s with commandRing := ring } holder) ∧
      ∀ i ∈ c.cmd.opens, ∀ holder, i ∉ slotsHeld { s with commandRing := ring } holder := by
  have hsub : ∀ holder, (socketsHeld { s with commandRing := ring } holder).Subperm
      (socketsHeld s holder) := by
    intro holder
    cases holder with
    | command =>
        simp only [socketsHeld, hitems]
        exact ((List.sublist_cons_self c ring.items).filterMap _).subperm
    | slot j => exact List.Subperm.refl _
    | ring j => exact List.Subperm.refl _
    | client a => exact List.Subperm.refl _
  have hsubSlots : ∀ holder, (slotsHeld { s with commandRing := ring } holder).Subperm
      (slotsHeld s holder) := by
    intro holder
    cases holder with
    | command =>
        simp only [slotsHeld, hitems]
        exact ((List.sublist_cons_self c ring.items).filterMap _).subperm
    | free => exact List.Subperm.refl _
    | client a => exact List.Subperm.refl _
    | bound j => exact List.Subperm.refl _
  refine ⟨?_, fun k hk => ?_, fun i hi => ?_⟩
  · exact h.pass (h.toSocketInv.congr rfl rfl rfl rfl) rfl rfl rfl (fun _ => rfl)
      (h.sockets.drop hsub) (h.slots.drop hsubSlots) fun holder k hk =>
        ⟨holder, (hsub holder).subset hk⟩
  · have hfirst : socketsHeld s .command = k :: ring.items.filterMap (·.cmd.descr) := by
      simp only [socketsHeld, hitems, List.filterMap_cons, Option.mem_def.mp hk]
    refine ⟨h.held .command k (by rw [hfirst]; exact List.mem_cons_self), ?_⟩
    exact (h.sockets.take hfirst (List.Subperm.refl _) fun holder _ => hsub holder).2
  · have hfirst : slotsHeld s .command = i :: ring.items.filterMap (·.cmd.opens) := by
      simp only [slotsHeld, hitems, List.filterMap_cons, Option.mem_def.mp hi]
    exact (h.slots.take hfirst (List.Subperm.refl _) fun holder _ => hsubSlots holder).2

/-- `process_commands` on a CLOSE. -/
theorem ServiceInv.processClose (h : ServiceInv s) (o : Answers) {i : ℕ}
    (hbuffers : ∀ k ∈ (s.satelite i).socket, k ∉ s.queue .buffersAvailable) :
    Outcome.Keeps ServiceInv (s.processCommand o (.close i)) := by
  simp only [ServiceState.processCommand]
  cases hk : (s.satelite i).socket with
  | none => exact h
  | some k =>
      obtain ⟨t, ht, hinv, hsockets, hnext, hqueue, hsatelite, -⟩ :=
        h.userFlushRxTx (h.live_of_socket hk).2
      have hk' : (t.satelite i).socket = some k := by
        rw [hsatelite]
        exact hk
      have hbuffers' : k ∉ t.queue .buffersAvailable := by
        rw [hqueue]
        exact hbuffers k hk
      obtain ⟨hclosed, hfree⟩ := hinv.closeSlot hk' hbuffers' o.waiting
      dsimp only
      rw [ht]
      exact hclosed.freeSocket hfree

/-- `process_commands` on an OPEN_SOCKET whose slot nobody has. -/
theorem ServiceInv.processOpen (h : ServiceInv s) (o : Answers) {i : ℕ} (type : SockType)
    (parent : Option ℕ) (hi : ∀ holder, i ∉ slotsHeld s holder) :
    Outcome.Keeps ServiceInv (s.processCommand o (.openSocket i type parent)) := by
  unfold ServiceState.processCommand
  dsimp only
  split
  · obtain ⟨hnew, hlive, hheld, hslots⟩ := h.appGlueCreateSocket type o.writeable
    have hnone : ∀ holder,
        s.next ∉ socketsHeld (s.appGlueCreateSocket type o.writeable).2 holder := by
      rw [hheld]
      exact h.not_held_next
    have hdata := hnew.appGlueSetUserData (some i) fun j hj =>
      absurd (mem_socketsHeld_slot.mpr hj) (hnone (.slot j))
    have huser := congrArg Socket.userData (ServiceState.setSocket_self
      (s.appGlueCreateSocket type o.writeable).2 s.next
        fun sock => { sock with userData := some i })
    have hreleased := (congrArg Socket.released (ServiceState.setSocket_self
      (s.appGlueCreateSocket type o.writeable).2 s.next
        fun sock => { sock with userData := some i })).trans hlive.2
    have hbind := hdata.bindSatelite (d := ⟨some s.next, some i, parent⟩) rfl
      ⟨hlive.1, hreleased⟩ hnone (fun holder hmem => hi holder (by rwa [← hslots])) huser
    exact hbind.call (by decide) hreleased
  · exact h

/-- `process_commands` on a SET_SOCKET_RING whose socket and slot nobody has. -/
theorem ServiceInv.processSetSocketRing (h : ServiceInv s) (o : Answers) {i k : ℕ}
    (hlive : s.Live k) (hk : ∀ holder, k ∉ socketsHeld s holder)
    (hi : ∀ holder, i ∉ slotsHeld s holder) :
    Outcome.Keeps ServiceInv (s.processCommand o (.setSocketRing i k)) := by
  have hdata := h.appGlueSetUserData (some i) fun j hj =>
    absurd (mem_socketsHeld_slot.mpr hj) (hk (.slot j))
  have huser := congrArg Socket.userData
    (s.setSocket_self k fun sock => { sock with userData := some i })
  have hreleased := (congrArg Socket.released
    (s.setSocket_self k fun sock => { sock with userData := some i })).trans hlive.2
  have hbind := hdata.bindSatelite
    (d := { s.satelite i with socket := some k, ringsetIdx := some i }) rfl
    ⟨hlive.1, hreleased⟩ hk hi huser
  have hcall := hbind.call (c := .streamWspace) (by decide) hreleased
  unfold ServiceState.processCommand
  refine hcall.userDataAvailableCbk ?_ o.available
  rintro j hj
  obtain rfl := Option.some.inj hj
  exact ⟨hlive.1, hreleased⟩

/-- `process_commands` on a TX_POOL_EMPTY. -/
theorem ServiceInv.processTxPoolEmpty (h : ServiceInv s) (o : Answers) (i : ℕ) :
    Outcome.Keeps ServiceInv (s.processCommand o (.txPoolEmpty i)) := by
  simp only [ServiceState.processCommand]
  cases hk : (s.satelite i).socket with
  | none => exact h
  | some k =>
      have hlive := h.live_of_socket hk
      dsimp only
      split
      · exact h
      next habsent =>
          have hinsert := h.insertTail (q := .buffersAvailable) hlive
            (Bool.eq_false_iff.mpr habsent) fun _ => ⟨i, hk⟩
          have hreleased := (setPresent_same s .buffersAvailable k true k).1.trans hlive.2
          show ServiceInv (if _ then _ else _)
          split
          · exact hinsert.call (by decide) hreleased
          · exact hinsert

theorem ServiceInv.inetShutdown (h : ServiceInv s) (k : ℕ) (st : TcpState) :
    ServiceInv (s.inetShutdown k st) := by
  unfold ServiceState.inetShutdown
  split
  · exact h.setSkState k .close
  · exact h.stateChange k st

theorem ServiceInv.appGlueV4Listen (h : ServiceInv s) (sock : Option ℕ) (listens : Bool) :
    Outcome.Keeps ServiceInv (s.appGlueV4Listen sock listens) := by
  cases sock with
  | none => exact h
  | some k =>
      unfold ServiceState.appGlueV4Listen
      dsimp only
      split
      · exact h.setSkState k .listen
      · exact h

/-- `process_commands` on one command, taken from the ring. -/
theorem ServiceInv.processCommand (h : ServiceInv s) (o : Answers) (cmd : Command)
    (hdescr : ∀ k ∈ cmd.descr, s.Live k ∧ ∀ holder, k ∉ socketsHeld s holder)
    (hopens : ∀ i ∈ cmd.opens, ∀ holder, i ∉ slotsHeld s holder)
    (hbuffers : ∀ i, cmd = .close i → ∀ k ∈ (s.satelite i).socket, k ∉ s.queue .buffersAvailable) :
    Outcome.Keeps ServiceInv (s.processCommand o cmd) := by
  have hlive : ∀ i, ∀ k ∈ (s.satelite i).socket, s.Live k := fun i k hk => h.live_of_socket hk
  cases cmd with
  | openSocket i type parent => exact h.processOpen o type parent (hopens i rfl)
  | connect i =>
      simp only [ServiceState.processCommand]
      cases hk : (s.satelite i).socket with
      | none => exact h
      | some k => exact h.stateChange k o.skState
  | bind i => exact h
  | listen i => exact h.appGlueV4Listen _ o.listens
  | close i => exact h.processClose o (hbuffers i rfl)
  | txKick i => exact h.userOnTransmissionOpportunity (hlive i) o.sent
  | rxKick i => exact h.userDataAvailableCbk (hlive i) o.available
  | setSocketRing i k =>
      exact h.processSetSocketRing o (hdescr k rfl).1 (hdescr k rfl).2 (hopens i rfl)
  | setSocketSelect i select =>
      have hreset : ServiceInv (s.setSatelite i { s.satelite i with parentIdx := select }) :=
        h.resetSatelite rfl
      have hself : (s.setSatelite i { s.satelite i with parentIdx := select }).satelite i =
          { s.satelite i with parentIdx := select } := Function.update_self _ _ _
      refine hreset.userDataAvailableCbk (fun k hk => ?_) o.available
      rw [hself] at hk
      exact hlive i k hk
  | txPoolEmpty i => exact h.processTxPoolEmpty o i
  | setsockopt i => exact h
  | shutdown i =>
      simp only [ServiceState.processCommand]
      cases hk : (s.satelite i).socket with
      | none => exact h
      | some k => exact h.inetShutdown k o.skState
  | decline k =>
      obtain ⟨hk, hnone⟩ := hdescr k rfl
      obtain ⟨t, ht, hinv, hsockets, hnext, -, -, hheld⟩ := h.userFlushRxTx hk.2
      unfold ServiceState.processCommand
      dsimp only
      rw [ht]
      refine hinv.appGlueCloseSocket ⟨?_, ?_⟩ (fun holder hmem => ?_) o.waiting
      · rw [hnext]
        exact hk.1
      · rw [hsockets]
        exact hk.2
      · exact hnone holder (hheld holder hmem)
  | other => exact h

end Commands

section Steps

variable {s t : ServiceState}

/-- The guard of the runs that leave no reference to a freed socket behind: the
closed-list loop finds its socket in no other list and with no slot, ring or command, and
CLOSE finds the socket of its slot not waiting for buffers. -/
def releaseOk (s : ServiceState) : ServiceStep → Prop
  | .service _ =>
      (s.pc = .closing → ∀ k ∈ (s.queue .closed).head?,
        (∀ q, q ≠ .closed → k ∉ s.queue q) ∧ ∀ holder, k ∉ socketsHeld s holder) ∧
      (s.pc = .commands → ∀ c ∈ s.commandRing.items.head?, ∀ i, c.cmd = .close i →
        ∀ k ∈ (s.satelite i).socket, k ∉ s.queue .buffersAvailable)
  | _ => True

theorem ServiceInv.processCommands (h : ServiceInv s) (o : Answers)
    (hbuffers : ∀ c ∈ s.commandRing.items.head?, ∀ i, c.cmd = .close i →
      ∀ k ∈ (s.satelite i).socket, k ∉ s.queue .buffersAvailable) :
    Outcome.Keeps ServiceInv (s.processCommands o) := by
  unfold ServiceState.processCommands
  cases hring : s.commandRing.dequeue with
  | none => exact h
  | some taken =>
      obtain ⟨c, ring⟩ := taken
      have hitems := (Ring.dequeue_eq_some_iff _ _ _).mp hring
      obtain ⟨hinv, hdescr, hopens⟩ := h.dequeueCommand hitems
      have hguard := hbuffers c (by rw [hitems]; rfl)
      have hcommand := hinv.processCommand o c.cmd hdescr hopens hguard
      exact hcommand.bind (fun _ ht => ht) fun t ht => ht.unseen _ _ _ _ _ _ _

/-- One round of the buffers-available loop. -/
theorem ServiceInv.buffersRound (h : ServiceInv s) (o : Answers) {k : ℕ}
    (hk : k ∈ s.queue .buffersAvailable) : Outcome.Keeps ServiceInv (s.buffersRound o k) := by
  have hlive := h.toSocketInv.live hk
  have hcall : ServiceInv (s.call .getUserData k) := h.call (by decide) hlive.2
  refine buffersRound_keeps o hcall (fun i k' hk' => ?_) (fun t ht => ht.remove k .buffersAvailable)
    fun t ht => ht.unseen _ _ _ _ _ _ _
  exact hcall.call (by decide) (h.live_of_socket hk').2

/-- One round of the closed-list loop on a socket that nothing else refers to. -/
theorem ServiceInv.closingRound (h : ServiceInv s) {k : ℕ} (hk : k ∈ s.queue .closed)
    (hlists : ∀ q, q ≠ .closed → k ∉ s.queue q) (hheld : ∀ holder, k ∉ socketsHeld s holder) :
    Outcome.Keeps ServiceInv (do
      let s ← s.userOnSocketFatal k
      return ((s.remove .closed k).hold k (-1)).kernelClose k) := by
  have hlive := h.toSocketInv.live hk
  obtain ⟨t, ht, hinv, hsockets, hnext, hqueue, -, hless⟩ := h.userFlushRxTx hlive.2
  have hlive' : t.Live k := by
    refine ⟨?_, ?_⟩
    · rw [hnext]
      exact hlive.1
    · rw [hsockets]
      exact hlive.2
  have hcall : ServiceInv (t.call .getUserData k) := hinv.call (by decide) hlive'.2
  unfold ServiceState.userOnSocketFatal
  rw [ht]
  show ServiceInv ((((t.call .getUserData k).remove .closed k).hold k (-1)).kernelClose k)
  have hremove := hcall.remove k .closed
  refine (hremove.hold k (-1)).kernelClose ⟨hlive'.1, ?_⟩ ⟨fun q hq => ?_, ?_⟩
  · refine (congrArg Socket.released (ServiceState.setSocket_self _ _ _)).trans ?_
    exact (setPresent_same _ .closed k false k).1.trans hlive'.2
  · obtain ⟨hmem, hne⟩ := (hcall.mem_queue_remove .closed q k).mp hq
    have hq' : q ≠ .closed := fun hq' => hne ⟨rfl, hq'⟩
    refine hlists q hq' ?_
    rw [← hqueue]
    exact hmem
  · exact fun holder hmem => hheld holder (hless holder hmem)

theorem Live.remove {k : ℕ} (h : s.Live k) (q : SocketQueue) (j : ℕ) : (s.remove q j).Live k :=
  ⟨h.1, (setPresent_same s q j false k).1.trans h.2⟩

/-- One step of the main loop. -/
theorem ServiceInv.serviceStep (h : ServiceInv s) (o : Answers)
    (hok : releaseOk s (.service o)) : Outcome.Keeps ServiceInv (s.serviceStep o) := by
  unfold ServiceState.serviceStep
  split
  next hat =>
      refine (h.processCommands o (hok.2 hat)).bind (fun _ ht => ht) fun t ht => ?_
      show ServiceInv (if _ then _ else _)
      split
      · exact ht.unseen _ _ _ _ _ _ _
      · exact ht.unseen _ _ _ _ _ _ _
  next idx limit _ =>
      split
      · exact h.unseen _ _ _ _ _ _ _
      next k rest hqueue =>
          split
          · have hlive : s.Live k :=
              h.toSocketInv.live (q := .write) (by rw [hqueue]; exact List.mem_cons_self)
            refine ((h.remove k .write).userOnTransmissionOpportunity (fun j hj => ?_)
              o.sent).bind (fun _ ht => ht) fun t ht => ht.unseen _ _ _ _ _ _ _
            obtain rfl := Option.some.inj hj
            exact Live.remove hlive _ _
          · exact h.unseen _ _ _ _ _ _ _
  next k idx limit _ =>
      exact ((h.hold k (-1)).count .write _).unseen _ _ _ _ _ _ _
  next hat =>
      split
      · exact h.unseen _ _ _ _ _ _ _
      next k rest hqueue =>
          have hk : k ∈ s.queue .closed := by
            rw [hqueue]
            exact List.mem_cons_self
          obtain ⟨hlists, hheld⟩ := hok.1 hat k (by rw [hqueue]; rfl)
          exact h.closingRound hk hlists hheld
  next hat =>
      split
      · exact h.unseen _ _ _ _ _ _ _
      next k rest hqueue =>
          have hlive : s.Live k :=
            h.toSocketInv.live (q := .accept) (by rw [hqueue]; exact List.mem_cons_self)
          have haccept := userOnAccept_keeps (P := fun t => ServiceInv t ∧ t.Live k) ⟨h, hlive⟩
            (fun t ht _ => ht.1.acceptRound ht.2) o.waiting
          refine haccept.bind (fun _ ht => ht.1) fun t ht => ?_
          exact (ht.1.remove k .accept).hold k (-1)
  next idx limit _ =>
      split
      · exact h.unseen _ _ _ _ _ _ _
      next k rest hqueue =>
          split
          · have hlive : s.Live k :=
              h.toSocketInv.live (q := .read) (by rw [hqueue]; exact List.mem_cons_self)
            refine ((h.remove k .read).userDataAvailableCbk (fun j hj => ?_)
              o.available).bind (fun _ ht => ht) fun t ht => ht.unseen _ _ _ _ _ _ _
            obtain rfl := Option.some.inj hj
            exact Live.remove hlive _ _
          · exact h.unseen _ _ _ _ _ _ _
  next k idx limit _ =>
      exact ((h.hold k (-1)).count .read _).unseen _ _ _ _ _ _ _
  next hat =>
      split
      · exact h.unseen _ _ _ _ _ _ _
      next k rest hqueue =>
          split
          · exact h.buffersRound o (by rw [hqueue]; exact List.mem_cons_self)
          · exact h.unseen _ _ _ _ _ _ _

theorem ServiceInv.appGlueSockReadable (h : ServiceInv s) {k : ℕ} (hk : k < s.next) :
    Outcome.Keeps ServiceInv (s.appGlueSockReadable k) := by
  unfold ServiceState.appGlueSockReadable
  split
  · exact h
  next hreleased =>
      split
      · exact h
      · split
        · split
          · exact h
          · exact h
        next habsent =>
            have hlive : s.Live k := ⟨hk, Bool.eq_false_iff.mpr hreleased⟩
            exact (h.enterList hlive (by decide) (Bool.eq_false_iff.mpr habsent)).count .read _

/-- An event of the stack. -/
theorem ServiceInv.stackEvent (h : ServiceInv s) {e : StackEvent} {r : Outcome}
    (hr : s.stackEvent e = some r) : r.Keeps ServiceInv := by
  cases e with
  | readable k =>
      simp only [ServiceState.stackEvent, Option.ite_none_right_eq_some, Option.some.injEq] at hr
      obtain ⟨hk, rfl⟩ := hr
      exact h.appGlueSockReadable hk
  | writeSpace k writeable =>
      simp only [ServiceState.stackEvent, Option.ite_none_right_eq_some, Option.some.injEq] at hr
      obtain ⟨hk, rfl⟩ := hr
      exact h.appGlueSockWriteSpace hk writeable
  | errorReport k =>
      simp only [ServiceState.stackEvent, Option.ite_none_right_eq_some, Option.some.injEq] at hr
      obtain ⟨hk, rfl⟩ := hr
      show ServiceInv (s.appGlueSockErrorReport k)
      unfold ServiceState.appGlueSockErrorReport
      split
      · exact h
      next hguard =>
          simp only [Bool.or_eq_true, not_or, Bool.not_eq_true] at hguard
          exact h.enterList ⟨hk, hguard.1⟩ (by decide) hguard.2
  | newConnection k =>
      simp only [ServiceState.stackEvent, Option.ite_none_right_eq_some, Option.some.injEq] at hr
      obtain ⟨⟨hk, -, hreleased⟩, rfl⟩ := hr
      show ServiceInv (s.appGlueSockWakeup k)
      unfold ServiceState.appGlueSockWakeup
      split
      · exact h
      next habsent =>
          exact h.enterList ⟨hk, hreleased⟩ (by decide) (Bool.eq_false_iff.mpr habsent)
  | stateChange k st =>
      simp only [ServiceState.stackEvent, Option.ite_none_right_eq_some, Option.some.injEq] at hr
      obtain ⟨hk, rfl⟩ := hr
      exact h.stateChange k st

end Steps

section Clients

variable {s : ServiceState} {a : ℕ}

theorem clients_setClient (s : ServiceState) (a : ℕ) (c : Client) (b : ℕ) :
    (s.setClient a c).clients b = if b = a then c else s.clients b := by
  by_cases hb : b = a
  · subst hb
    simp [ServiceState.setClient]
  · simp [ServiceState.setClient, hb]

/-- A client drops what it has in hand, or keeps it. -/
theorem ServiceInv.setClient (h : ServiceInv s) {c : Client}
    (hsock : c.pc.sock = none ∨ c.pc.sock = (s.clients a).pc.sock)
    (hslot : c.pc.slot = none ∨ c.pc.slot = (s.clients a).pc.slot) :
    ServiceInv (s.setClient a c) := by
  have hsub : ∀ holder, (socketsHeld (s.setClient a c) holder).Subperm (socketsHeld s holder) := by
    intro holder
    cases holder with
    | client b =>
        simp only [socketsHeld, clients_setClient]
        split
        next hb =>
            subst hb
            rcases hsock with hsock | hsock
            · simp [hsock]
            · simp [hsock, List.Subperm.refl]
        · exact List.Subperm.refl _
    | slot j => exact List.Subperm.refl _
    | ring j => exact List.Subperm.refl _
    | command => exact List.Subperm.refl _
  have hsubSlots : ∀ holder, (slotsHeld (s.setClient a c) holder).Subperm (slotsHeld s holder) := by
    intro holder
    cases holder with
    | client b =>
        simp only [slotsHeld, clients_setClient]
        split
        next hb =>
            subst hb
            rcases hslot with hslot | hslot
            · simp [hslot]
            · simp [hslot, List.Subperm.refl]
        · exact List.Subperm.refl _
    | free => exact List.Subperm.refl _
    | command => exact List.Subperm.refl _
    | bound j => exact List.Subperm.refl _
  exact h.pass (h.toSocketInv.congr rfl rfl rfl rfl) rfl rfl rfl (fun _ => rfl)
    (h.sockets.drop hsub) (h.slots.drop hsubSlots) fun holder k hk =>
      ⟨holder, (hsub holder).subset hk⟩

/-- A client that has no slot in hand takes one. -/
theorem ServiceInv.takeFree (h : ServiceInv s) {i : ℕ} {ring : Ring ℕ (connectionPoolSize - 1)}
    (hring : s.freeConnectionsRing.items = i :: ring.items) {pc : ClientPc}
    (hbefore : (s.clients a).pc.slot = none) (hslot : pc.slot = some i)
    (hsock : pc.sock = (s.clients a).pc.sock) :
    ServiceInv (ServiceState.setClientPc { s with freeConnectionsRing := ring } a pc) := by
  have hheld : socketsHeld (ServiceState.setClientPc { s with freeConnectionsRing := ring } a pc) =
      socketsHeld s := by
    funext holder
    cases holder with
    | client b =>
        simp only [socketsHeld, ServiceState.setClientPc, clients_setClient]
        split
        next hb =>
            subst hb
            rw [hsock]
        · rfl
    | slot j => rfl
    | ring j => rfl
    | command => rfl
  refine h.pass (h.toSocketInv.congr rfl rfl rfl rfl) rfl rfl rfl (fun _ => rfl)
    (hheld ▸ h.sockets) ?_ fun holder k hk => ⟨holder, by rwa [hheld] at hk⟩
  refine h.slots.hand (i := .free) (j := .client a) (by simp) hring (List.Subperm.refl _) ?_
    fun holder hfree hclient => ?_
  · simp only [slotsHeld, ServiceState.setClientPc, clients_setClient, if_true, hslot, hbefore]
    exact List.Subperm.refl _
  · cases holder with
    | free => exact absurd rfl hfree
    | client b =>
        have hb : b ≠ a := fun hb => hclient (by rw [hb])
        simp only [slotsHeld, ServiceState.setClientPc, clients_setClient, if_neg hb]
        exact List.Subperm.refl _
    | command => exact List.Subperm.refl _
    | bound j => exact List.Subperm.refl _

/-- A client that has no socket in hand takes one from a receive ring. -/
theorem ServiceInv.acceptTake (h : ServiceInv s) {i buf k : ℕ}
    {ring : Ring RxEntry dataRingCapacity}
    (hring : (s.rxRing i).items = .accepted buf k :: ring.items)
    (hidle : (s.clients a).pc = .idle) :
    ServiceInv ((s.setRxRing i ring).setClientPc a (.accepting buf k)) := by
  have hslots : slotsHeld ((s.setRxRing i ring).setClientPc a (.accepting buf k)) =
      slotsHeld s := by
    funext holder
    cases holder with
    | client b =>
        simp only [slotsHeld, ServiceState.setClientPc, clients_setClient]
        split
        next hb =>
            subst hb
            rw [hidle]
            rfl
        · rfl
    | free => rfl
    | command => rfl
    | bound j => rfl
  have hfirst : socketsHeld s (.ring i) = k :: ring.items.filterMap RxEntry.sock := by
    simp [socketsHeld, hring, RxEntry.sock]
  have hclient : socketsHeld ((s.setRxRing i ring).setClientPc a (.accepting buf k)) (.client a) =
      [k] := by
    simp only [socketsHeld, ServiceState.setClientPc, clients_setClient, if_true]
    rfl
  have hself : socketsHeld ((s.setRxRing i ring).setClientPc a (.accepting buf k)) (.ring i) =
      ring.items.filterMap RxEntry.sock := by
    simp [socketsHeld, ServiceState.setClientPc, ServiceState.setClient, ServiceState.setRxRing]
  have hother : ∀ holder, holder ≠ .ring i → holder ≠ .client a →
      socketsHeld ((s.setRxRing i ring).setClientPc a (.accepting buf k)) holder =
        socketsHeld s holder := by
    intro holder hne hne'
    cases holder with
    | ring j =>
        have hj : j ≠ i := fun hj => hne (by rw [hj])
        simp [socketsHeld, ServiceState.setClientPc, ServiceState.setClient,
          ServiceState.setRxRing, hj]
    | client b =>
        have hb : b ≠ a := fun hb => hne' (by rw [hb])
        simp only [socketsHeld, ServiceState.setClientPc, clients_setClient, if_neg hb]
        rfl
    | slot j => rfl
    | command => rfl
  refine h.pass (h.toSocketInv.congr rfl rfl rfl rfl) rfl rfl rfl (fun _ => rfl) ?_
    (hslots ▸ h.slots) fun holder j hj => ?_
  · refine h.sockets.hand (i := .ring i) (j := .client a) (by simp) hfirst ?_ ?_
      fun holder hne hne' => ?_
    · rw [hself]
    · rw [hclient]
      simp [socketsHeld, hidle, ClientPc.sock, List.Subperm.refl]
    · rw [hother holder hne hne']
  · by_cases hne : holder = .ring i
    · subst hne
      rw [hself] at hj
      exact ⟨.ring i, by rw [hfirst]; exact List.mem_cons_of_mem k hj⟩
    · by_cases hne' : holder = .client a
      · subst hne'
        rw [hclient, List.mem_singleton] at hj
        subst hj
        exact ⟨.ring i, by rw [hfirst]; exact List.mem_cons_self⟩
      · rw [hother holder hne hne'] at hj
        exact ⟨holder, hj⟩

theorem toList_subperm_filterMap {α β : Type} (f : α → Option β) (items : List α) (x : α) :
    ((items ++ [x]).filterMap f).Subperm ((f x).toList ++ items.filterMap f) := by
  rw [List.filterMap_append]
  cases hx : f x with
  | none => simp [hx, List.Subperm.refl]
  | some b =>
      simp only [List.filterMap_cons, hx, List.filterMap_nil, Option.toList_some]
      exact List.perm_append_comm.subperm

/-- A command that a client has filled in is queued, or the client lets go of it. -/
theorem ServiceInv.post (h : ServiceInv s) {c : CmdBuf} (hpc : (s.clients a).pc = .issuing c) :
    ServiceInv (s.post a c) := by
  have hidle : ServiceInv (s.setClientPc a .idle) := h.setClient (.inl rfl) (.inl rfl)
  unfold ServiceState.post
  dsimp only
  have hitems := Ring.items_enqueueBulk (commandRingCapacity + 1)
    (s.setClientPc a .idle).commandRing [c]
  split
  next =>
      unfold ServiceState.notPosted
      split
      · exact hidle
      · exact hidle.unseen _ _ _ _ _ _ _
  next code ring _ heq =>
      rw [heq] at hitems
      dsimp only at hitems
      have hless : ∀ {β : Type} (f : CmdBuf → Option β),
          (ring.items.filterMap f).Subperm ((f c).toList ++ s.commandRing.items.filterMap f) := by
        intro β f
        rw [hitems]
        split
        · exact (List.sublist_append_right _ _).subperm
        · exact toList_subperm_filterMap f _ c
      have hqueued : ServiceInv { s.setClientPc a .idle with commandRing := ring } := by
        have hsockets : Exclusive
            (socketsHeld { s.setClientPc a .idle with commandRing := ring }) := by
          refine h.sockets.handAll (i := .client a) (j := .command) (by simp)
            (x := c.cmd.descr) ?_ ?_ (hless fun c => c.cmd.descr) fun holder hne hne' => ?_
          · simp only [socketsHeld, hpc, ClientPc.sock]
          · simp [socketsHeld, ServiceState.setClientPc, clients_setClient, ClientPc.sock]
          · cases holder with
            | client b =>
                have hb : b ≠ a := fun hb => hne (by rw [hb])
                simp [socketsHeld, ServiceState.setClientPc, clients_setClient, hb]
            | command => exact absurd rfl hne'
            | slot j => rfl
            | ring j => rfl
        have hslots : Exclusive
            (slotsHeld { s.setClientPc a .idle with commandRing := ring }) := by
          refine h.slots.handAll (i := .client a) (j := .command) (by simp)
            (x := c.cmd.opens) ?_ ?_ (hless fun c => c.cmd.opens) fun holder hne hne' => ?_
          · simp only [slotsHeld, hpc, ClientPc.slot]
          · simp [slotsHeld, ServiceState.setClientPc, clients_setClient, ClientPc.slot]
          · cases holder with
            | client b =>
                have hb : b ≠ a := fun hb => hne (by rw [hb])
                simp [slotsHeld, ServiceState.setClientPc, clients_setClient, hb]
            | command => exact absurd rfl hne'
            | free => rfl
            | bound j => rfl
        refine h.pass (h.toSocketInv.congr rfl rfl rfl rfl) rfl rfl rfl (fun _ => rfl) hsockets
          hslots fun holder k hk => ?_
        cases holder with
        | command =>
            rcases List.mem_append.mp ((hless fun c => c.cmd.descr).subset hk) with hk | hk
            · refine ⟨.client a, ?_⟩
              simpa only [socketsHeld, hpc, ClientPc.sock] using hk
            · exact ⟨.command, hk⟩
        | client b =>
            have hb : b ≠ a := by
              rintro rfl
              simp [socketsHeld, ServiceState.setClientPc, clients_setClient, ClientPc.sock] at hk
            refine ⟨.client b, ?_⟩
            simpa [socketsHeld, ServiceState.setClientPc, clients_setClient, hb] using hk
        | slot j => exact ⟨.slot j, hk⟩
        | ring j => exact ⟨.ring j, hk⟩
      unfold ServiceState.posted
      dsimp only
      split
      · exact hqueued
      · refine hqueued.setClient (.inr ?_) (.inr ?_) <;> rfl

theorem Command.plain_spec {cmd : Command} (h : cmd.plain = true) :
    cmd.descr = none ∧ cmd.opens = none := by
  cases cmd <;> first | exact ⟨rfl, rfl⟩ | cases h

theorem ServiceInv.calledWith (h : ServiceInv s) (cmd : Command) :
    ServiceInv (s.calledWith a cmd) ∧ ((s.calledWith a cmd).clients a).pc = (s.clients a).pc := by
  unfold ServiceState.calledWith
  split
  · refine ⟨h.setClient (.inr rfl) (.inr rfl), ?_⟩
    simp [clients_setClient]
  · exact ⟨h, rfl⟩

/-- A step of a client. -/
theorem ServiceInv.clientStep (h : ServiceInv s) {step : ServiceStep} {t : ServiceState}
    (ht : s.clientStep step = some t) : ServiceInv t := by
  cases ServiceState.clientStep_move ht with
  | takeSlot hidle hfree =>
      exact h.takeFree hfree (by rw [hidle]; rfl) rfl (by rw [hidle]; rfl)
  | @lostSlot a i type parent hpc hpool =>
      have hidle : ServiceInv (s.setClientPc a .idle) := h.setClient (.inl rfl) (.inl rfl)
      exact hidle.unseen _ _ _ _ _ _ _
  | @openCommand a i buf type parent pool hpc hpool =>
      have hpool' : ServiceInv { s with freeCommandPool := pool } := h.unseen _ _ _ _ _ _ _
      exact hpool'.setClient (.inl rfl) (.inr (by
        show some i = (s.clients a).pc.slot
        rw [hpc]
        rfl))
  | calledOnly hplain hidle hpool => exact (h.calledWith _).1
  | @getCommand a buf cmd pool hplain hidle hpool =>
      obtain ⟨hdescr, hopens⟩ := Command.plain_spec hplain
      have hpool' : ServiceInv { s with freeCommandPool := pool } := h.unseen _ _ _ _ _ _ _
      exact (hpool'.calledWith cmd).1.setClient (.inl hdescr) (.inl hopens)
  | acceptTake hidle hring => exact h.acceptTake hring hidle
  | mbufTaken hring => exact h.unseen _ _ _ _ _ _ _
  | decline hpc => exact h.setClient (.inr (by rw [hpc]; rfl)) (.inl rfl)
  | acceptSlot hpc hfree => exact h.takeFree hfree (by rw [hpc]; rfl) rfl (by rw [hpc]; rfl)
  | post hpc => exact h.post hpc
  | dequeueRx hring =>
      refine h.setRxRing ?_
      rw [hring]
      exact ((List.sublist_cons_self _ _).filterMap _).subperm

end Clients

theorem serviceInv_settle {r : Outcome} (h : r.Keeps ServiceInv) :
    ServiceInv (ServiceState.settle r) := by
  cases r with
  | ok s => exact h
  | error e => exact ServiceInv.unseen h _ _ _ _ _ _ _

/-- **Step lemma.**  A step that leaves no reference to a freed socket behind. -/
theorem serviceInv_step {s t : ServiceState} {a : ServiceStep} (h : ServiceInv s)
    (hok : releaseOk s a) (ht : serviceMachine.step s a = some t) : ServiceInv t := by
  simp only [serviceMachine] at ht
  split at ht
  next => cases ht
  next =>
      split at ht
      next e =>
          obtain ⟨r, hr, rfl⟩ := Option.map_eq_some_iff.mp ht
          exact serviceInv_settle (h.stackEvent hr)
      next o =>
          obtain rfl := Option.some.inj ht
          exact serviceInv_settle (h.serviceStep o hok)
      next => exact h.clientStep ht

theorem serviceInv_init : ServiceInv serviceMachine.init where
  unborn _ _ := ⟨fun _ => rfl, rfl⟩
  nodup _ := List.nodup_nil
  flags _ _ := ⟨(nomatch ·), (nomatch ·)⟩
  alive _ _ hk := nomatch hk
  used := trivial
  closed _ hk := nomatch hk
  sockets := .of_forall_nil fun holder => by cases holder <;> rfl
  slots := by
    have hnone : Exclusive fun _ : SlotHolder => ([] : List ℕ) := .of_forall_nil fun _ => rfl
    refine hnone.giveAll (j := .free) initialConnections_nodup (fun _ _ _ => List.not_mem_nil) rfl
      fun holder hne => ?_
    cases holder with
    | free => exact absurd rfl hne
    | command => rfl
    | client a => rfl
    | bound i => rfl
  held holder _ hk := by cases holder <;> cases hk
  bound _ _ hk := nomatch hk
  waits _ hk := nomatch hk

/-- **A socket is closed once and not used afterwards.**  In every run in which the
closed-list loop and CLOSE leave no reference to the socket they free, no call is made
on a socket after its `kernel_close`, another `kernel_close` included. -/
theorem closed_once_not_used_after {s : ServiceState}
    (hreach : serviceMachine.ReachableWhere releaseOk s) : WellUsed s.calls := by
  have hinv : ServiceInv s := by
    refine serviceMachine.invariant_of_step serviceInv_init ?_ hreach
    intro s a t h hok hstep
    exact serviceInv_step h hok hstep
  exact hinv.used

instance decidableWellUsed : (calls : List (KernelCall × ℕ)) → Decidable (WellUsed calls)
  | [] => inferInstanceAs (Decidable True)
  | (_, k) :: earlier =>
      have := decidableWellUsed earlier
      inferInstanceAs (Decidable ((KernelCall.close, k) ∉ earlier ∧ WellUsed earlier))

/-- A guard that can be evaluated: the closed-list loop has nothing to do, and CLOSE comes
while no socket waits for buffers. -/
def quietOk (s : ServiceState) : ServiceStep → Prop
  | .service _ => (s.pc = .closing → s.queue .closed = []) ∧
      (s.pc = .commands → s.queue .buffersAvailable = [])
  | _ => True

instance (s : ServiceState) : ∀ a, Decidable (quietOk s a)
  | .service _ => inferInstanceAs (Decidable ((s.pc = .closing → s.queue .closed = []) ∧
      (s.pc = .commands → s.queue .buffersAvailable = [])))
  | .stack _ | .takeSlot _ _ _ | .openCommand _ | .getCommand _ _ | .acceptTake _ _
  | .acceptSlot _ | .post _ | .dequeueRx _ => .isTrue trivial

theorem releaseOk_of_quietOk {s : ServiceState} {a : ServiceStep} (h : quietOk s a) :
    releaseOk s a := by
  cases a with
  | service o =>
      refine ⟨fun hpc k hk => ?_, fun hpc c _ i _ k _ hk => ?_⟩
      · rw [h.1 hpc] at hk
        cases hk
      · rw [h.2 hpc] at hk
        cases hk
  | _ => trivial

/-- A connection is opened and connected, data arrives, and it is closed. -/
def readRun : List ServiceStep :=
  [.takeSlot 0 .stream none, .openCommand 0, .post 0,
    .service {}, .service {}, .service {}, .service {}, .service {}, .service {},
    .getCommand 0 (.connect 0), .post 0, .service { skState := .synSent },
    .stack (.stateChange 0 .established), .stack (.readable 0),
    .service {}, .service {}, .service {}, .service { available := 2 }, .service {}, .service {},
    .service {}, .getCommand 0 (.close 0), .post 0, .service {}]

theorem closed_once_not_used_after_read :
    ∃ s, serviceMachine.ReachableWhere releaseOk s ∧
      (KernelCall.close, 0) ∈ s.calls ∧ (KernelCall.recvmsg, 0) ∈ s.calls ∧ WellUsed s.calls := by
  have hrun : ((serviceMachine.restrict quietOk).run readRun).map
      (fun s => (decide ((KernelCall.close, 0) ∈ s.calls),
        decide ((KernelCall.recvmsg, 0) ∈ s.calls))) = some (true, true) := by decide +kernel
  obtain ⟨s, hs, hcalls⟩ := Option.map_eq_some_iff.mp hrun
  have hreach := (serviceMachine.reachableWhere_of_run hs).mono fun _ _ => releaseOk_of_quietOk
  simp only [Prod.mk.injEq, decide_eq_true_eq] at hcalls
  exact ⟨s, hreach, hcalls.1, hcalls.2, closed_once_not_used_after hreach⟩

/-- A connection is opened, connected and reset by its peer, and closed by the client
after the closed-list loop has freed its socket. -/
def resetRun : List ServiceStep :=
  [.takeSlot 0 .stream none, .openCommand 0, .post 0,
    .service {}, .service {}, .service {}, .service {}, .service {}, .service {},
    .getCommand 0 (.connect 0), .post 0, .service { skState := .synSent },
    .stack (.stateChange 0 .established), .stack (.errorReport 0),
    .service {}, .service {}, .service {}, .service {}, .service {}, .service {},
    .getCommand 0 (.close 0), .post 0, .service {}]

/-- The freed socket is flushed and closed again. -/
theorem client_close_after_error_uses_freed_socket :
    ∃ s, serviceMachine.run resetRun = some s ∧ ¬ WellUsed s.calls := by
  have hrun : (serviceMachine.run resetRun).map (fun s => decide (WellUsed s.calls)) =
      some false := by decide +kernel
  obtain ⟨s, hs, hcalls⟩ := Option.map_eq_some_iff.mp hrun
  exact ⟨s, hs, decide_eq_false_iff_not.mp hcalls⟩

end IpAugenblick
