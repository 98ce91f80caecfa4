/-
# What the callbacks leave where it is

Command buffers, connection slots and accepted connections are handed on by few
functions: `process_commands`, `user_on_accept`, the flush of a receive ring and the
calls of the clients.  All the others work on the sockets, their lists and the chains in
the receive rings.

A `CallbackFrame` is a relation between the states before and after that contains the
elementary changes of the callbacks; it then contains the callbacks.
-/

import IpAugenblick.Service.References

namespace IpAugenblick

open Lib

theorem Outcome.Keeps.mono {P Q : ServiceState → Prop} {r : Outcome} (hr : r.Keeps P)
    (hle : ∀ t, P t → Q t) : r.Keeps Q := by
  cases r with
  | ok t => exact hle t hr
  | error e => exact hle e.2 hr

theorem Outcome.Keeps.and {P Q : ServiceState → Prop} {r : Outcome} (hp : r.Keeps P)
    (hq : r.Keeps Q) : r.Keeps fun t => P t ∧ Q t := by
  cases r with
  | ok t => exact ⟨hp, hq⟩
  | error e => exact ⟨hp, hq⟩

/-- The elementary changes of the callbacks are within `R`. -/
structure CallbackFrame (R : ServiceState → ServiceState → Prop) : Prop where
  refl : ∀ s, R s s
  trans : ∀ {s t u}, R s t → R t u → R s u
  received : ∀ {s t}, OnlyReceived s t → R s t
  loop : ∀ s pc, R s { s with pc }
  hold : ∀ s k d, R s (s.hold k d)
  insertTail : ∀ s q k, R s (s.insertTail q k)
  remove : ∀ s q k, R s (s.remove q k)
  count : ∀ s q f, R s (s.count q f)
  setSkState : ∀ s k st, st ≠ .listen → R s (s.setSocket k fun sock => { sock with skState := st })
  setUserData : ∀ s k data, R s (s.appGlueSetUserData k data)
  kernelClose : ∀ s k, R s (s.kernelClose k)
  acceptAndClose : ∀ s k, R s ((s.kernelAccept k).2.kernelClose s.next)

namespace CallbackFrame

variable {R : ServiceState → ServiceState → Prop} (hR : CallbackFrame R) {s : ServiceState}

include hR

theorem call (s : ServiceState) (c : KernelCall) (k : ℕ) : R s (s.call c k) :=
  hR.received (.call s c k)

/-- A socket enters a list, with a reference. -/
theorem enter (s : ServiceState) (q : SocketQueue) (k : ℕ) :
    R s ((s.hold k 1).insertTail q k) := hR.trans (hR.hold s k 1) (hR.insertTail _ q k)

theorem appGlueSockReadable (s : ServiceState) (k : ℕ) :
    Outcome.Keeps (R s) (s.appGlueSockReadable k) := by
  unfold ServiceState.appGlueSockReadable
  split
  · exact hR.refl s
  · split
    · exact hR.refl s
    · split
      · split
        · exact hR.refl s
        · exact hR.refl s
      · exact hR.trans (hR.enter s .read k) (hR.count _ _ _)

theorem appGlueSockWriteSpace (s : ServiceState) (k : ℕ) (writeable : Bool) :
    R s (s.appGlueSockWriteSpace k writeable) := by
  unfold ServiceState.appGlueSockWriteSpace
  split
  · exact hR.refl s
  · split
    · exact hR.refl s
    · split
      · exact hR.refl s
      · exact hR.trans (hR.enter s .write k) (hR.count _ _ _)

theorem stateChange (s : ServiceState) (k : ℕ) (st : TcpState) : R s (s.stateChange k st) := by
  unfold ServiceState.stateChange
  split
  · exact hR.refl s
  next hne => exact hR.setSkState s k st fun hst => hne (.inr hst)

theorem inetShutdown (s : ServiceState) (k : ℕ) (st : TcpState) :
    R s (s.inetShutdown k st) := by
  unfold ServiceState.inetShutdown
  split
  · exact hR.setSkState s k .close nofun
  · exact hR.stateChange s k st

/-- An event of the stack. -/
theorem stackEvent {e : StackEvent} {r : Outcome} (hr : s.stackEvent e = some r) :
    r.Keeps (R s) := by
  unfold ServiceState.stackEvent at hr
  split at hr <;> split at hr <;> simp only [Option.some.injEq, reduceCtorEq] at hr <;> subst hr
  case h_1.isTrue k _ => exact hR.appGlueSockReadable s k
  case h_2.isTrue k writeable _ => exact hR.appGlueSockWriteSpace s k writeable
  case h_3.isTrue k _ =>
      show R s (s.appGlueSockErrorReport k)
      unfold ServiceState.appGlueSockErrorReport
      split
      · exact hR.refl s
      · exact hR.enter s .closed k
  case h_4.isTrue k _ =>
      show R s (s.appGlueSockWakeup k)
      unfold ServiceState.appGlueSockWakeup
      split
      · exact hR.refl s
      · exact hR.enter s .accept k
  case h_5.isTrue k st _ => exact hR.stateChange s k st

theorem userDataAvailableCbk (s : ServiceState) (sock : Option ℕ) (available : ℕ) :
    Outcome.Keeps (R s) (s.userDataAvailableCbk sock available) :=
  (onlyReceived_userDataAvailableCbk s sock available).mono fun _ => hR.received

theorem userOnTransmissionOpportunity (s : ServiceState) (sock : Option ℕ) (sent : ℕ) :
    Outcome.Keeps (R s) (s.userOnTransmissionOpportunity sock sent) :=
  (onlyReceived_userOnTransmissionOpportunity s sock sent).mono fun _ => hR.received

theorem closeWaiting (k waiting : ℕ) (s : ServiceState) :
    R s (ServiceState.closeWaiting k waiting s) := by
  induction waiting generalizing s with
  | zero => exact hR.refl s
  | succ waiting ih =>
      unfold ServiceState.closeWaiting
      split
      · exact hR.refl s
      · exact hR.trans (hR.acceptAndClose s k) (ih _)

theorem leave (s : ServiceState) (q : SocketQueue) (k : ℕ) : R s (s.leave q k) := by
  unfold ServiceState.leave
  split
  · exact hR.trans (hR.remove s q k) (hR.count _ _ _)
  · exact hR.refl s

theorem appGlueCloseSocket (s : ServiceState) (k waiting : ℕ) :
    R s (s.appGlueCloseSocket k waiting) := by
  have hlists := hR.trans (hR.leave s .read k) (hR.leave _ .write k)
  have haccept : R s (s.leaveLists k waiting) := by
    unfold ServiceState.leaveLists
    dsimp only
    refine hR.trans (hR.trans hlists ?_) (hR.leave _ .closed k)
    split
    · exact hR.trans (hR.closeWaiting k waiting _) (hR.remove _ .accept k)
    · exact hR.refl _
  exact hR.trans (hR.trans haccept (hR.setUserData _ k none)) (hR.kernelClose _ k)

theorem appGlueCreateSocket {type : SockType}
    (hnew : R s (s.newSocket { Socket.unborn with type })) (writeable : Bool) :
    R s (s.appGlueCreateSocket type writeable).2 := by
  unfold ServiceState.appGlueCreateSocket
  dsimp only
  split
  · exact hnew
  · exact hR.trans hnew (hR.appGlueSockWriteSpace _ _ _)

theorem txPoolEmpty (s : ServiceState) (o : Answers) (i : ℕ) :
    Outcome.Keeps (R s) (s.processCommand o (.txPoolEmpty i)) := by
  simp only [ServiceState.processCommand]
  cases (s.satelite i).socket with
  | none => exact hR.refl s
  | some k =>
      have hinsert := hR.insertTail s .buffersAvailable k
      dsimp only
      split
      · exact hR.refl s
      · show R s (if _ then _ else _)
        split
        · exact hR.trans hinsert (hR.call _ _ _)
        · exact hinsert

theorem buffersRound (s : ServiceState) (o : Answers) (k : ℕ) :
    Outcome.Keeps (R s) (s.buffersRound o k) := by
  have hcall := hR.call s .getUserData k
  refine buffersRound_keeps o hcall (fun i k' _ => ?_) (fun t ht => ?_) fun t ht => ?_
  · exact hR.trans hcall (hR.call _ _ _)
  · exact hR.trans ht (hR.remove t .buffersAvailable k)
  · exact hR.trans ht (hR.loop t _)

/-- The steps of the main loop outside `process_commands` and `user_on_accept`, when what the
closed-list loop flushes is within `R`. -/
theorem serviceStep (o : Answers) (hcommands : s.pc ≠ .commands) (haccepting : s.pc ≠ .accepting)
    (hflush : s.pc = .closing → ∀ k ∈ (s.queue .closed).head?,
      Outcome.Keeps (R s) (s.userFlushRxTx k)) : Outcome.Keeps (R s) (s.serviceStep o) := by
  unfold ServiceState.serviceStep
  split
  next hpc => exact absurd hpc hcommands
  next idx limit _ =>
      split
      · exact hR.loop s _
      next k rest _ =>
          have hremove := hR.remove s .write k
          split
          · exact (hR.userOnTransmissionOpportunity _ _ o.sent).bind
              (fun t ht => hR.trans hremove ht)
              fun t ht => hR.trans (hR.trans hremove ht) (hR.loop t _)
          · exact hR.loop s _
  next k idx limit _ =>
      exact hR.trans (hR.trans (hR.hold s k _) (hR.count _ _ _)) (hR.loop _ _)
  next hpc =>
      split
      · exact hR.loop s _
      next k rest hqueue =>
          have hfatal : Outcome.Keeps (R s) (s.userOnSocketFatal k) := by
            refine (hflush hpc k (by rw [hqueue]; rfl)).bind (fun _ ht => ht) fun t ht => ?_
            exact hR.trans ht (hR.call t _ k)
          refine hfatal.bind (fun _ ht => ht) fun t ht => ?_
          exact hR.trans (hR.trans (hR.trans ht (hR.remove t .closed k)) (hR.hold _ k _))
            (hR.kernelClose _ k)
  next hpc => exact absurd hpc haccepting
  next idx limit _ =>
      split
      · exact hR.loop s _
      next k rest _ =>
          have hremove := hR.remove s .read k
          split
          · exact (hR.userDataAvailableCbk _ _ o.available).bind
              (fun t ht => hR.trans hremove ht)
              fun t ht => hR.trans (hR.trans hremove ht) (hR.loop t _)
          · exact hR.loop s _
  next k idx limit _ =>
      exact hR.trans (hR.trans (hR.hold s k _) (hR.count _ _ _)) (hR.loop _ _)
  next =>
      split
      · exact hR.loop s _
      · split
        · exact hR.buffersRound s o _
        · exact hR.loop s _

end CallbackFrame

/-- What carries command buffers is as it was. -/
structure SameBufs (s t : ServiceState) : Prop where
  commandRing : t.commandRing = s.commandRing
  clients : t.clients = s.clients
  pool : t.freeCommandPool = s.freeCommandPool
  waiting : ∀ j, (t.rxRing j).items.filter RxEntry.isAccepted =
    (s.rxRing j).items.filter RxEntry.isAccepted

/-- What carries slots is as it was. -/
structure SameSlots (s t : ServiceState) : Prop where
  commandRing : t.commandRing = s.commandRing
  clients : t.clients = s.clients
  free : t.freeConnectionsRing = s.freeConnectionsRing
  socket : ∀ i, (t.satelite i).socket = (s.satelite i).socket
  lostSlots : t.lostSlots = s.lostSlots

/-- Both. -/
structure SameHands (s t : ServiceState) : Prop extends SameBufs s t, SameSlots s t

section Frames

variable {s t u : ServiceState}

theorem SameBufs.refl (s : ServiceState) : SameBufs s s := ⟨rfl, rfl, rfl, fun _ => rfl⟩

theorem SameBufs.trans (hst : SameBufs s t) (htu : SameBufs t u) : SameBufs s u where
  commandRing := htu.commandRing.trans hst.commandRing
  clients := htu.clients.trans hst.clients
  pool := htu.pool.trans hst.pool
  waiting j := (htu.waiting j).trans (hst.waiting j)

theorem SameSlots.refl (s : ServiceState) : SameSlots s s := ⟨rfl, rfl, rfl, fun _ => rfl, rfl⟩

theorem SameSlots.trans (hst : SameSlots s t) (htu : SameSlots t u) : SameSlots s u where
  commandRing := htu.commandRing.trans hst.commandRing
  clients := htu.clients.trans hst.clients
  free := htu.free.trans hst.free
  socket i := (htu.socket i).trans (hst.socket i)
  lostSlots := htu.lostSlots.trans hst.lostSlots

theorem SameHands.of (hbufs : SameBufs s t) (hslots : SameSlots s t) : SameHands s t :=
  { hbufs, hslots with }

theorem sameHands_with (s : ServiceState) (sockets : ℕ → Socket) (next : ℕ)
    (queue : SocketQueue → List ℕ) (readLen writeLen : ℕ) (pc : ServicePc)
    (calls : List (KernelCall × ℕ)) (accepted : List ℕ) :
    SameHands s { s with
      sockets, next, queue, pc, calls, accepted
      readSocketsQueueLen := readLen
      writeSocketsQueueLen := writeLen } :=
  .of ⟨rfl, rfl, rfl, fun _ => rfl⟩ ⟨rfl, rfl, rfl, fun _ => rfl, rfl⟩

/-- The callbacks hand nothing on. -/
theorem sameHands : CallbackFrame SameHands where
  refl s := .of (.refl s) (.refl s)
  trans hst htu :=
    .of (hst.toSameBufs.trans htu.toSameBufs) (hst.toSameSlots.trans htu.toSameSlots)
  received := by
    rintro s t ⟨calls, rings, rfl, hrings⟩
    exact .of ⟨rfl, rfl, rfl, hrings⟩ ⟨rfl, rfl, rfl, fun _ => rfl, rfl⟩
  loop s _ := sameHands_with s _ _ _ _ _ _ _ _
  hold s _ _ := sameHands_with s _ _ _ _ _ _ _ _
  insertTail s _ _ := sameHands_with s _ _ _ _ _ _ _ _
  remove s _ _ := sameHands_with s _ _ _ _ _ _ _ _
  count s q _ := by cases q <;> exact sameHands_with s _ _ _ _ _ _ _ _
  setSkState s _ _ _ := sameHands_with s _ _ _ _ _ _ _ _
  setUserData s _ _ := sameHands_with s _ _ _ _ _ _ _ _
  kernelClose s _ := sameHands_with s _ _ _ _ _ _ _ _
  acceptAndClose s _ := sameHands_with s _ _ _ _ _ _ _ _

theorem sameHands_kernelAccept (s : ServiceState) (k : ℕ) : SameHands s (s.kernelAccept k).2 :=
  sameHands_with s _ _ _ _ _ _ _ _

theorem sameHands_appGlueCreateSocket (s : ServiceState) (type : SockType) (writeable : Bool) :
    SameHands s (s.appGlueCreateSocket type writeable).2 :=
  sameHands.appGlueCreateSocket (sameHands_with s _ _ _ _ _ _ _ _) writeable

theorem sameHands_appGlueV4Listen (s : ServiceState) (sock : Option ℕ) (listens : Bool) :
    Outcome.Keeps (SameHands s) (s.appGlueV4Listen sock listens) := by
  cases sock with
  | none => exact sameHands.refl s
  | some k =>
      unfold ServiceState.appGlueV4Listen
      dsimp only
      split
      · exact sameHands_with s _ _ _ _ _ _ _ _
      · exact sameHands.refl s

/-- A flush on behalf of socket `k` finds chains only. -/
def ServiceState.FlushesChains (s : ServiceState) (k : ℕ) : Prop :=
  ∀ i ∈ (s.sockets k).userData, ∀ e ∈ (s.rxRing i).items, e.isAccepted = false

/-- A flush empties a receive ring and makes calls. -/
theorem userFlushRxTx_spec (s : ServiceState) (k : ℕ) :
    ∃ t, s.userFlushRxTx k = .ok t ∧ SameSlots s t ∧ (s.FlushesChains k → SameBufs s t) := by
  refine ⟨_, userFlushRxTx_eq s k, ?_⟩
  unfold ServiceState.FlushesChains
  cases (s.sockets k).userData with
  | none => exact ⟨⟨rfl, rfl, rfl, fun _ => rfl, rfl⟩, fun _ => ⟨rfl, rfl, rfl, fun _ => rfl⟩⟩
  | some i =>
      refine ⟨⟨rfl, rfl, rfl, fun _ => rfl, rfl⟩, fun hchains => ⟨rfl, rfl, rfl, fun j => ?_⟩⟩
      have hnone : (s.rxRing i).items.filter RxEntry.isAccepted = [] := by
        refine List.filter_eq_nil_iff.mpr fun e he => ?_
        rw [hchains i rfl e he]
        exact Bool.false_ne_true
      by_cases hj : j = i
      · subst hj
        rw [hnone]
        simp [ServiceState.call, ServiceState.setRxRing]
      · simp [ServiceState.call, ServiceState.setRxRing, hj]

def ServiceState.StepFlushesChains (s : ServiceState) : Prop :=
  (s.pc = .commands → ∀ c ∈ s.commandRing.items.head?,
    (∀ i, c.cmd = .close i → ∀ k ∈ (s.satelite i).socket, s.FlushesChains k) ∧
      ∀ k, c.cmd = .decline k → s.FlushesChains k) ∧
    (s.pc = .closing → ∀ k ∈ (s.queue .closed).head?, s.FlushesChains k)

/-- The slots are not concerned by a flush either. -/
theorem sameSlots : CallbackFrame SameSlots where
  refl := .refl
  trans := .trans
  received h := (sameHands.received h).toSameSlots
  loop s pc := (sameHands.loop s pc).toSameSlots
  hold s k d := (sameHands.hold s k d).toSameSlots
  insertTail s q k := (sameHands.insertTail s q k).toSameSlots
  remove s q k := (sameHands.remove s q k).toSameSlots
  count s q f := (sameHands.count s q f).toSameSlots
  setSkState s k st hst := (sameHands.setSkState s k st hst).toSameSlots
  setUserData s k data := (sameHands.setUserData s k data).toSameSlots
  kernelClose s k := (sameHands.kernelClose s k).toSameSlots
  acceptAndClose s k := (sameHands.acceptAndClose s k).toSameSlots

theorem sameSlots_userFlushRxTx (s : ServiceState) (k : ℕ) :
    Outcome.Keeps (SameSlots s) (s.userFlushRxTx k) := by
  obtain ⟨t, ht, hslots, -⟩ := userFlushRxTx_spec s k
  rw [ht]
  exact hslots

theorem sameHands_userFlushRxTx {k : ℕ} (hchains : s.FlushesChains k) :
    Outcome.Keeps (SameHands s) (s.userFlushRxTx k) := by
  obtain ⟨t, ht, hslots, hbufs⟩ := userFlushRxTx_spec s k
  rw [ht]
  exact .of (hbufs hchains) hslots

/-- The commands that change nothing but sockets and their lists. -/
def Command.local : Command → Bool
  | .connect _ => true
  | .bind _ => true
  | .txKick _ => true
  | .rxKick _ => true
  | .txPoolEmpty _ => true
  | .setsockopt _ => true
  | .shutdown _ => true
  | .other => true
  | _ => false

theorem CallbackFrame.processLocal {R : ServiceState → ServiceState → Prop}
    (hR : CallbackFrame R) (o : Answers) {cmd : Command} (hlocal : cmd.local = true) :
    Outcome.Keeps (R s) (s.processCommand o cmd) := by
  cases cmd with
  | connect i =>
      simp only [ServiceState.processCommand]
      cases (s.satelite i).socket with
      | none => exact hR.refl s
      | some k => exact hR.stateChange s k o.skState
  | bind i => exact hR.refl s
  | txKick i => exact hR.userOnTransmissionOpportunity s _ o.sent
  | rxKick i => exact hR.userDataAvailableCbk s _ o.available
  | txPoolEmpty i => exact hR.txPoolEmpty s o i
  | setsockopt i => exact hR.refl s
  | shutdown i =>
      simp only [ServiceState.processCommand]
      cases (s.satelite i).socket with
      | none => exact hR.refl s
      | some k => exact hR.inetShutdown s k o.skState
  | other => exact hR.refl s
  | _ => cases hlocal

/-- SET_SOCKET_SELECT keeps the socket of the slot. -/
theorem sameHands_processSelect (o : Answers) (i : ℕ) (select : Option ℕ) :
    Outcome.Keeps (SameHands s) (s.processCommand o (.setSocketSelect i select)) := by
  have hselect : SameHands s (s.setSatelite i { s.satelite i with parentIdx := select }) := by
    refine .of ⟨rfl, rfl, rfl, fun _ => rfl⟩ ⟨rfl, rfl, rfl, fun j => ?_, rfl⟩
    by_cases hj : j = i
    · subst hj
      simp [ServiceState.setSatelite]
    · simp [ServiceState.setSatelite, hj]
  exact (sameHands.userDataAvailableCbk _ _ o.available).mono fun _ ht => sameHands.trans hselect ht

end Frames

end IpAugenblick
