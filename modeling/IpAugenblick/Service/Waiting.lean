/-
# The buffers-available list

TX_POOL_EMPTY puts the socket of a slot in the buffers-available list, and the main loop takes it
out when there are buffers and the client could be told.  Nothing else takes a socket out: CLOSE
and the closed-list loop free it where it is, and the closed-list loop leaves it in the satellite
data of its slot, where the next TX_POOL_EMPTY finds it.

What the list depends on is a `view` of the service that forgets the four lists of `app_glue.c`
and which sockets were freed.  In this view the invariant of the references of a socket holds in
every run; the list is then right in the runs where no socket is freed in it or put in it freed.
-/

import IpAugenblick.Service.Accepted

namespace IpAugenblick

open Lib

/-- A socket, but for what the lists of `app_glue.c`, the stack and its free say about it. -/
def Socket.forget (sock : Socket) : Socket :=
  { sock with
    skState := .close
    present := fun q => q = .buffersAvailable && sock.present q
    holds := 0
    released := false }

/-- The service as the buffers-available list sees it. -/
def ServiceState.view (s : ServiceState) : ServiceState :=
  { s with
    sockets := fun k => (s.sockets k).forget
    queue := fun q => if q = .buffersAvailable then s.queue q else []
    readSocketsQueueLen := 0
    writeSocketsQueueLen := 0
    pc := .commands
    calls := []
    accepted := [] }

/-- The list has no duplicates, agrees with its flags, and holds open sockets whose slot points
back to them. -/
structure ServiceState.BuffersListed (s : ServiceState) : Prop where
  nodup : (s.queue .buffersAvailable).Nodup
  flags : ∀ k, k ∈ s.queue .buffersAvailable ↔ (s.sockets k).present .buffersAvailable = true
  live : ∀ k ∈ s.queue .buffersAvailable, s.Live k
  points : ∀ k ∈ s.queue .buffersAvailable,
    ∃ i, (s.sockets k).userData = some i ∧ (s.satelite i).socket = some k

/-- CLOSE finds a socket that does not wait for buffers, TX_POOL_EMPTY one that was not freed. -/
def ServiceState.waitsOk (s : ServiceState) : Command → Prop
  | .close i => ∀ k ∈ (s.satelite i).socket, k ∉ s.queue .buffersAvailable
  | .txPoolEmpty i => ∀ k ∈ (s.satelite i).socket, (s.sockets k).released = false
  | _ => True

/-- No socket is freed while it waits for buffers, and no freed one starts to wait. -/
def waitingOk (s : ServiceState) : ServiceStep → Prop
  | .service _ =>
      (s.pc = .closing → ∀ k ∈ (s.queue .closed).head?, k ∉ s.queue .buffersAvailable) ∧
      (s.pc = .commands → ∀ c ∈ s.commandRing.items.head?, s.waitsOk c.cmd)
  | _ => True

/-- The references are right but for frees, and what waits for buffers is not freed. -/
structure WaitInv (s : ServiceState) : Prop where
  inv : ServiceInv s.view
  alive : ∀ k ∈ s.queue .buffersAvailable, (s.sockets k).released = false

theorem WaitInv.buffersListed {s : ServiceState} (h : WaitInv s) : s.BuffersListed where
  nodup := h.inv.nodup .buffersAvailable
  flags k := h.inv.flags .buffersAvailable k
  live k hk := ⟨(h.inv.toSocketInv.live (q := .buffersAvailable) hk).1, h.alive k hk⟩
  points k hk := by
    obtain ⟨i, hi⟩ := h.inv.waits k hk
    exact ⟨i, h.inv.bound i k hi, hi⟩

/-! ## What the view does not see -/

/-- The buffers-available list and what it depends on are as they were; sockets may have come. -/
structure SameWaiting (s t : ServiceState) : Prop where
  held : ∀ holder, (socketsHeld t holder).Subperm (socketsHeld s holder)
  slots : slotsHeld t = slotsHeld s
  socket : ∀ i, (t.satelite i).socket = (s.satelite i).socket
  next : s.next ≤ t.next
  queue : t.queue .buffersAvailable = s.queue .buffersAvailable
  kept : ∀ k, (t.sockets k).present .buffersAvailable = (s.sockets k).present .buffersAvailable ∨
    s.next ≤ k ∧ (t.sockets k).present .buffersAvailable = false
  userData : ∀ k < s.next, (t.sockets k).userData = (s.sockets k).userData
  alive : ∀ k ∈ s.queue .buffersAvailable, k < s.next →
    (t.sockets k).released = (s.sockets k).released

section SameWaiting

variable {s t u : ServiceState} {k : ℕ}

theorem SameWaiting.refl (s : ServiceState) : SameWaiting s s :=
  ⟨fun _ => .refl _, rfl, fun _ => rfl, le_rfl, rfl, fun _ => .inl rfl, fun _ _ => rfl,
    fun _ _ _ => rfl⟩

theorem SameWaiting.trans (hst : SameWaiting s t) (htu : SameWaiting t u) : SameWaiting s u where
  held holder := (htu.held holder).trans (hst.held holder)
  slots := htu.slots.trans hst.slots
  socket i := (htu.socket i).trans (hst.socket i)
  next := hst.next.trans htu.next
  queue := htu.queue.trans hst.queue
  kept k := by
    rcases htu.kept k with hkept | ⟨hge, hnone⟩
    · rw [hkept]
      exact hst.kept k
    · exact .inr ⟨hst.next.trans hge, hnone⟩
  userData k hk := (htu.userData k (hk.trans_le hst.next)).trans (hst.userData k hk)
  alive k hk hlt := by
    rw [htu.alive k (hst.queue ▸ hk) (hlt.trans_le hst.next), hst.alive k hk hlt]

/-- The invariant depends on nothing else. -/
theorem WaitInv.congr (h : WaitInv s) (hsame : SameWaiting s t) : WaitInv t := by
  have hlt : ∀ k ∈ s.queue .buffersAvailable, k < s.next := fun k hk =>
    (h.inv.toSocketInv.live (q := .buffersAvailable) hk).1
  have hflag : ∀ k, (t.sockets k).present .buffersAvailable =
      (s.sockets k).present .buffersAvailable := by
    intro k
    rcases hsame.kept k with hkept | ⟨hge, hnone⟩
    · exact hkept
    · rw [hnone]
      exact ((h.inv.unborn k hge).1 .buffersAvailable).symm
  have hbefore : ∀ holder k, k ∈ socketsHeld t.view holder → k < s.next := fun holder k hk =>
    (h.inv.held holder k ((hsame.held holder).subset hk)).1
  refine ⟨?_, fun k hk => ?_⟩
  · exact
      { unborn := fun k hk => ⟨fun q => by
          by_cases hq : q = .buffersAvailable
          · subst hq
            exact (hflag k).trans ((h.inv.unborn k (hsame.next.trans hk)).1 .buffersAvailable)
          · simp [ServiceState.view, Socket.forget, hq], rfl⟩
        nodup := fun q => by
          by_cases hq : q = .buffersAvailable
          · subst hq
            show (t.queue .buffersAvailable).Nodup
            rw [hsame.queue]
            exact h.inv.nodup .buffersAvailable
          · simp [ServiceState.view, hq]
        flags := fun q k => by
          by_cases hq : q = .buffersAvailable
          · subst hq
            show k ∈ t.queue .buffersAvailable ↔ (t.sockets k).present .buffersAvailable = true
            rw [hsame.queue, hflag]
            exact h.inv.flags .buffersAvailable k
          · simp [ServiceState.view, Socket.forget, hq]
        alive := fun _ _ _ => rfl
        used := trivial
        closed := fun _ hk => nomatch hk
        sockets := h.inv.sockets.drop hsame.held
        slots := hsame.slots ▸ h.inv.slots
        held := fun holder k hk => ⟨(hbefore holder k hk).trans_le hsame.next, rfl⟩
        bound := fun i k hk => by
          have hlt := hbefore (.slot i) k (mem_socketsHeld_slot.mpr hk)
          refine (hsame.userData k hlt).trans (h.inv.bound i k ?_)
          exact (hsame.socket i).symm.trans hk
        waits := fun k hk => by
          have hk' : k ∈ s.queue .buffersAvailable := hsame.queue ▸ hk
          obtain ⟨i, hi⟩ := h.inv.waits k hk'
          exact ⟨i, (hsame.socket i).trans hi⟩ }
  · rw [hsame.queue] at hk
    exact (hsame.alive k hk (hlt k hk)).trans (h.alive k hk)

/-- Nobody's sockets and slots are concerned. -/
theorem sameWaiting_of_hands (hands : SameHands s t) (hnext : s.next ≤ t.next)
    (hqueue : t.queue .buffersAvailable = s.queue .buffersAvailable)
    (hkept : ∀ k, (t.sockets k).present .buffersAvailable =
        (s.sockets k).present .buffersAvailable ∨
      s.next ≤ k ∧ (t.sockets k).present .buffersAvailable = false)
    (huser : ∀ k < s.next, (t.sockets k).userData = (s.sockets k).userData)
    (halive : ∀ k ∈ s.queue .buffersAvailable, k < s.next →
      (t.sockets k).released = (s.sockets k).released) : SameWaiting s t where
  held holder := by
    rw [socketsHeld_congr hands]
  slots := slotsHeld_congr hands.toSameSlots
  socket := hands.socket
  next := hnext
  queue := hqueue
  kept := hkept
  userData := huser
  alive := halive

theorem sameWaiting_received (h : OnlyReceived s t) : SameWaiting s t := by
  have hands := sameHands.received h
  obtain ⟨calls, rings, rfl, -⟩ := h
  exact sameWaiting_of_hands hands le_rfl rfl (fun _ => .inl rfl) (fun _ _ => rfl)
    fun _ _ _ => rfl

/-- A socket changes, and not in what the list depends on. -/
theorem sameWaiting_setSocket (s : ServiceState) (k : ℕ) (f : Socket → Socket)
    (hpresent : (f (s.sockets k)).present .buffersAvailable =
      (s.sockets k).present .buffersAvailable)
    (huser : (f (s.sockets k)).userData = (s.sockets k).userData)
    (hreleased : k ∈ s.queue .buffersAvailable →
      (f (s.sockets k)).released = (s.sockets k).released) :
    SameWaiting s (s.setSocket k f) := by
  refine sameWaiting_of_hands (sameHands_with s _ _ _ _ _ _ _ _) le_rfl rfl (fun j => .inl ?_)
    (fun j _ => ?_) fun j hj _ => ?_
  · by_cases hjk : j = k
    · subst hjk
      rw [ServiceState.setSocket_self, hpresent]
    · rw [ServiceState.setSocket_of_ne _ hjk]
  · by_cases hjk : j = k
    · subst hjk
      rw [ServiceState.setSocket_self, huser]
    · rw [ServiceState.setSocket_of_ne _ hjk]
  · by_cases hjk : j = k
    · subst hjk
      rw [ServiceState.setSocket_self, hreleased hj]
    · rw [ServiceState.setSocket_of_ne _ hjk]

theorem sameWaiting_hold (s : ServiceState) (k : ℕ) (d : ℤ) : SameWaiting s (s.hold k d) :=
  sameWaiting_setSocket s k _ rfl rfl fun _ => rfl

theorem sameWaiting_setSkState (s : ServiceState) (k : ℕ) (st : TcpState) :
    SameWaiting s (s.setSocket k fun sock => { sock with skState := st }) :=
  sameWaiting_setSocket s k _ rfl rfl fun _ => rfl

/-- The other lists change. -/
theorem sameWaiting_setQueue (s : ServiceState) (q : SocketQueue) (hq : q ≠ .buffersAvailable)
    (k : ℕ) (b : Bool) (list : List ℕ) :
    SameWaiting s { s.setPresent q k b with queue := Function.update s.queue q list } := by
  have hflag := sameWaiting_setSocket s k
    (fun sock => { sock with present := Function.update sock.present q b })
    (Function.update_of_ne (Ne.symm hq) _ _) rfl fun _ => rfl
  exact sameWaiting_of_hands (sameHands_with s _ _ _ _ _ _ _ _) le_rfl
    (Function.update_of_ne (Ne.symm hq) _ _) hflag.kept hflag.userData hflag.alive

theorem sameWaiting_insertTail (s : ServiceState) (q : SocketQueue) (hq : q ≠ .buffersAvailable)
    (k : ℕ) : SameWaiting s (s.insertTail q k) := sameWaiting_setQueue s q hq k true _

theorem sameWaiting_remove (s : ServiceState) (q : SocketQueue) (hq : q ≠ .buffersAvailable)
    (k : ℕ) : SameWaiting s (s.remove q k) := sameWaiting_setQueue s q hq k false _

theorem sameWaiting_with (s : ServiceState) (readLen writeLen : ℕ) (pool : List ℕ) (pc : ServicePc)
    (crash : Option Crash) (accepted lost : List ℕ) :
    SameWaiting s { s with
      readSocketsQueueLen := readLen
      writeSocketsQueueLen := writeLen
      freeCommandPool := pool
      lostSlots := lost
      pc, crash, accepted } :=
  ⟨fun _ => .refl _, rfl, fun _ => rfl, le_rfl, rfl, fun _ => .inl rfl, fun _ _ => rfl,
    fun _ _ _ => rfl⟩

theorem sameWaiting_count (s : ServiceState) (q : SocketQueue) (f : ℕ → ℕ) :
    SameWaiting s (s.count q f) := by
  cases q <;> exact sameWaiting_with s _ _ _ _ _ _ _

/-- A callback puts a socket in its list. -/
theorem sameWaiting_enter (s : ServiceState) (q : SocketQueue) (hq : q ≠ .buffersAvailable)
    (k : ℕ) : SameWaiting s ((s.hold k 1).insertTail q k) :=
  (sameWaiting_hold s k 1).trans (sameWaiting_insertTail _ q hq k)

/-- The close of a socket that does not wait. -/
theorem sameWaiting_kernelClose (hk : k ∉ s.queue .buffersAvailable) :
    SameWaiting s (s.kernelClose k) := by
  refine (sameWaiting_received (.call s .close k)).trans ?_
  exact sameWaiting_setSocket _ k _ rfl rfl fun hmem => absurd hmem hk

theorem sameWaiting_newSocket {sock : Socket} (hpresent : ∀ q, sock.present q = false) :
    SameWaiting s (s.newSocket sock) := by
  have hother : ∀ k, k ≠ s.next → (s.newSocket sock).sockets k = s.sockets k := fun k hk =>
    Function.update_of_ne hk _ _
  refine sameWaiting_of_hands (sameHands_with s _ _ _ _ _ _ _ _) (Nat.le_succ _) rfl
    (fun k => ?_) (fun k hk => by rw [hother k hk.ne]) fun k _ hk => by rw [hother k hk.ne]
  by_cases hk : k = s.next
  · subst hk
    refine .inr ⟨le_rfl, ?_⟩
    rw [show (s.newSocket sock).sockets s.next = sock from Function.update_self _ _ _]
    exact hpresent _
  · rw [hother k hk]
    exact .inl rfl

theorem sameWaiting_kernelAccept (s : ServiceState) (k : ℕ) :
    SameWaiting s (s.kernelAccept k).2 :=
  (sameWaiting_newSocket fun _ => rfl).trans (sameWaiting_with _ _ _ _ _ _ _ _)

/-- A connection that is accepted and closed at once. -/
theorem sameWaiting_acceptAndClose (s : ServiceState) (k : ℕ) :
    SameWaiting s ((s.kernelAccept k).2.kernelClose s.next) := by
  have haccept := sameWaiting_kernelAccept s k
  have hclose : ∀ j, ((s.kernelAccept k).2.kernelClose s.next).sockets j =
      if j = s.next then _ else (s.kernelAccept k).2.sockets j := fun j =>
    Function.update_apply _ _ _ _
  refine sameWaiting_of_hands (sameHands.acceptAndClose s k) haccept.next haccept.queue
    (fun j => ?_) (fun j hj => ?_) fun j hmem hj => ?_
  · rw [hclose]
    split
    next hj =>
        subst hj
        exact haccept.kept s.next
    next => exact haccept.kept j
  · rw [hclose, if_neg hj.ne]
    exact haccept.userData j hj
  · rw [hclose, if_neg hj.ne]
    exact haccept.alive j hmem hj

theorem sameWaiting_stateChange (s : ServiceState) (k : ℕ) (st : TcpState) :
    SameWaiting s (s.stateChange k st) := by
  unfold ServiceState.stateChange
  split
  · exact .refl s
  · exact sameWaiting_setSkState s k st

theorem sameWaiting_inetShutdown (s : ServiceState) (k : ℕ) (st : TcpState) :
    SameWaiting s (s.inetShutdown k st) := by
  unfold ServiceState.inetShutdown
  split
  · exact sameWaiting_setSkState s k .close
  · exact sameWaiting_stateChange s k st

theorem sameWaiting_appGlueV4Listen (s : ServiceState) (sock : Option ℕ) (listens : Bool) :
    Outcome.Keeps (SameWaiting s) (s.appGlueV4Listen sock listens) := by
  unfold ServiceState.appGlueV4Listen
  cases sock with
  | none => exact .refl s
  | some k =>
      dsimp only
      split
      · exact sameWaiting_setSkState s k .listen
      · exact .refl s

theorem sameWaiting_appGlueSockReadable (s : ServiceState) (k : ℕ) :
    Outcome.Keeps (SameWaiting s) (s.appGlueSockReadable k) := by
  unfold ServiceState.appGlueSockReadable
  split
  · exact .refl s
  · split
    · exact .refl s
    · split
      · split
        · exact .refl s
        · exact .refl s
      · exact (sameWaiting_enter s .read nofun k).trans (sameWaiting_count _ _ _)

theorem sameWaiting_appGlueSockWriteSpace (s : ServiceState) (k : ℕ) (writeable : Bool) :
    SameWaiting s (s.appGlueSockWriteSpace k writeable) := by
  unfold ServiceState.appGlueSockWriteSpace
  split
  · exact .refl s
  · split
    · exact .refl s
    · split
      · exact .refl s
      · exact (sameWaiting_enter s .write nofun k).trans (sameWaiting_count _ _ _)

/-- The events of the stack. -/
theorem sameWaiting_stackEvent {e : StackEvent} {r : Outcome} (hr : s.stackEvent e = some r) :
    r.Keeps (SameWaiting s) := by
  cases e with
  | readable k =>
      obtain ⟨-, hr⟩ := Option.ite_none_right_eq_some.mp hr
      cases hr
      exact sameWaiting_appGlueSockReadable s k
  | writeSpace k writeable =>
      obtain ⟨-, hr⟩ := Option.ite_none_right_eq_some.mp hr
      cases hr
      exact sameWaiting_appGlueSockWriteSpace s k writeable
  | errorReport k =>
      obtain ⟨-, hr⟩ := Option.ite_none_right_eq_some.mp hr
      cases hr
      show SameWaiting s (s.appGlueSockErrorReport k)
      unfold ServiceState.appGlueSockErrorReport
      split
      · exact .refl s
      · exact sameWaiting_enter s .closed nofun k
  | newConnection k =>
      obtain ⟨-, hr⟩ := Option.ite_none_right_eq_some.mp hr
      cases hr
      show SameWaiting s (s.appGlueSockWakeup k)
      unfold ServiceState.appGlueSockWakeup
      split
      · exact .refl s
      · exact sameWaiting_enter s .accept nofun k
  | stateChange k st =>
      obtain ⟨-, hr⟩ := Option.ite_none_right_eq_some.mp hr
      cases hr
      exact sameWaiting_stateChange s k st

theorem sameWaiting_closeWaiting (k waiting : ℕ) (s : ServiceState) :
    SameWaiting s (ServiceState.closeWaiting k waiting s) := by
  induction waiting generalizing s with
  | zero => exact .refl s
  | succ waiting ih =>
      unfold ServiceState.closeWaiting
      split
      · exact .refl s
      · exact (sameWaiting_acceptAndClose s k).trans (ih _)

theorem sameWaiting_leave (s : ServiceState) (q : SocketQueue) (hq : q ≠ .buffersAvailable)
    (k : ℕ) : SameWaiting s (s.leave q k) := by
  unfold ServiceState.leave
  split
  · exact (sameWaiting_remove s q hq k).trans (sameWaiting_count _ _ _)
  · exact .refl s

/-- The first part of `app_glue_close_socket` leaves the socket where it waits. -/
theorem sameWaiting_leaveLists (s : ServiceState) (k waiting : ℕ) :
    SameWaiting s (s.leaveLists k waiting) := by
  have hlists := (sameWaiting_leave s .read nofun k).trans (sameWaiting_leave _ .write nofun k)
  unfold ServiceState.leaveLists
  dsimp only
  refine (hlists.trans ?_).trans (sameWaiting_leave _ .closed nofun k)
  split
  · exact (sameWaiting_closeWaiting k waiting _).trans (sameWaiting_remove _ .accept nofun k)
  · exact .refl _

theorem sameWaiting_appGlueCreateSocket (s : ServiceState) (type : SockType) (writeable : Bool) :
    SameWaiting s (s.appGlueCreateSocket type writeable).2 := by
  have hnew : SameWaiting s (s.newSocket { Socket.unborn with type }) :=
    sameWaiting_newSocket fun _ => rfl
  unfold ServiceState.appGlueCreateSocket
  dsimp only
  split
  · exact hnew
  · exact hnew.trans (sameWaiting_appGlueSockWriteSpace _ _ _)

/-- A flush may drop sockets that wait to be accepted. -/
theorem sameWaiting_userFlushRxTx (s : ServiceState) (k : ℕ) :
    ∃ t, s.userFlushRxTx k = .ok t ∧ SameWaiting s t ∧ t.satelite = s.satelite ∧
      t.sockets = s.sockets ∧ t.queue = s.queue := by
  refine ⟨_, userFlushRxTx_eq s k, ?_⟩
  cases (s.sockets k).userData with
  | none =>
      refine ⟨?_, rfl, rfl, rfl⟩
      refine sameWaiting_received ?_
      exact ((OnlyReceived.call s _ k).trans (.call _ _ k)).trans (.call _ _ k)
  | some i =>
      refine ⟨⟨fun holder => ?_, rfl, fun _ => rfl, le_rfl, rfl, fun _ => .inl rfl,
        fun _ _ => rfl, fun _ _ _ => rfl⟩, rfl, rfl, rfl⟩
      cases holder with
      | ring j =>
          by_cases hj : j = i
          · subst hj
            simp [socketsHeld, ServiceState.setRxRing, ServiceState.call]
          · simp [socketsHeld, ServiceState.setRxRing, ServiceState.call, hj, List.Subperm.refl]
      | slot j => exact .refl _
      | command => exact .refl _
      | client a => exact .refl _

end SameWaiting

/-! ## What the view does see -/

section View

variable {s t : ServiceState} {i k : ℕ}

/-- A socket changes in the view as it does. -/
theorem view_setSocket (s : ServiceState) (k : ℕ) {f g : Socket → Socket}
    (hfg : (f (s.sockets k)).forget = g (s.sockets k).forget) :
    (s.setSocket k f).view = s.view.setSocket k g := by
  have hsockets : (fun j => ((s.setSocket k f).sockets j).forget) =
      Function.update (fun j => (s.sockets j).forget) k (g (s.sockets k).forget) := by
    funext j
    by_cases hj : j = k
    · subst hj
      rw [ServiceState.setSocket_self, hfg, Function.update_self]
    · rw [ServiceState.setSocket_of_ne _ hj, Function.update_of_ne hj]
  show ({ s.view with sockets := fun j => ((s.setSocket k f).sockets j).forget } : ServiceState) = _
  rw [hsockets]
  rfl

theorem view_appGlueSetUserData (s : ServiceState) (k : ℕ) (data : Option ℕ) :
    (s.appGlueSetUserData k data).view = s.view.appGlueSetUserData k data :=
  view_setSocket s k rfl

/-- The view does not see a close. -/
theorem view_kernelClose (s : ServiceState) (k : ℕ) : (s.kernelClose k).view = s.view := by
  refine (view_setSocket (s.call .close k) k (g := id) rfl).trans ?_
  unfold ServiceState.setSocket
  rw [id_eq, Function.update_eq_self]
  rfl

theorem view_setPresent (s : ServiceState) (k : ℕ) (b : Bool) :
    (s.setPresent .buffersAvailable k b).view = s.view.setPresent .buffersAvailable k b := by
  refine view_setSocket s k ?_
  unfold Socket.forget
  congr 1
  funext q
  by_cases hq : q = .buffersAvailable
  · subst hq
    simp
  · simp [hq]

/-- The view follows the buffers-available list. -/
theorem view_setQueue (s : ServiceState) (k : ℕ) (b : Bool) (list : List ℕ) :
    ServiceState.view { s.setPresent .buffersAvailable k b with
        queue := Function.update s.queue .buffersAvailable list } =
      { s.view.setPresent .buffersAvailable k b with
        queue := Function.update s.view.queue .buffersAvailable list } := by
  rw [← view_setPresent]
  unfold ServiceState.view
  congr 1
  funext q
  by_cases hq : q = .buffersAvailable
  · subst hq
    simp
  · simp [hq]

theorem view_insertTail (s : ServiceState) (k : ℕ) :
    (s.insertTail .buffersAvailable k).view = s.view.insertTail .buffersAvailable k :=
  view_setQueue s k true _

theorem view_remove (s : ServiceState) (k : ℕ) :
    (s.remove .buffersAvailable k).view = s.view.remove .buffersAvailable k :=
  view_setQueue s k false _

theorem view_ipaugenblickPostAccepted (s : ServiceState) (buf newsock i : ℕ) :
    (s.ipaugenblickPostAccepted buf newsock i).view =
      s.view.ipaugenblickPostAccepted buf newsock i := by
  have hring : s.view.rxRing i = s.rxRing i := rfl
  unfold ServiceState.ipaugenblickPostAccepted
  rw [hring]
  rcases (s.rxRing i).enqueueBulk (dataRingCapacity + 1) [.accepted buf newsock] with ⟨code, ring⟩
  cases code <;> rfl

theorem view_calledWith (s : ServiceState) (a : ℕ) (cmd : Command) :
    (s.calledWith a cmd).view = s.view.calledWith a cmd ∧
      (s.calledWith a cmd).sockets = s.sockets ∧ (s.calledWith a cmd).queue = s.queue := by
  cases cmd <;> exact ⟨rfl, rfl, rfl⟩

theorem view_post (s : ServiceState) (a : ℕ) (c : CmdBuf) :
    (s.post a c).view = s.view.post a c ∧ (s.post a c).sockets = s.sockets ∧
      (s.post a c).queue = s.queue := by
  have hsame : (s.view.setClientPc a .idle).commandRing = (s.setClientPc a .idle).commandRing := rfl
  unfold ServiceState.post
  dsimp only
  rw [hsame]
  rcases (s.setClientPc a .idle).commandRing.enqueueBulk (commandRingCapacity + 1) [c] with
    ⟨code, ring⟩
  obtain ⟨buf, cmd⟩ := c
  cases code <;> cases cmd <;> exact ⟨rfl, rfl, rfl⟩

/-- A client works on what the view shows. -/
theorem view_clientStep {step : ServiceStep} (ht : s.clientStep step = some t) :
    s.view.clientStep step = some t.view ∧ t.sockets = s.sockets ∧ t.queue = s.queue := by
  have hclients : s.view.clients = s.clients := rfl
  have hfree : s.view.freeConnectionsRing = s.freeConnectionsRing := rfl
  have hpool : s.view.freeCommandPool = s.freeCommandPool := rfl
  have hrings : s.view.rxRing = s.rxRing := rfl
  cases step with
  | stack e => cases ht
  | service o => cases ht
  | takeSlot a type parent =>
      simp only [ServiceState.clientStep, hclients, hfree] at ht ⊢
      split at ht
      next =>
          cases ht
          exact ⟨rfl, rfl, rfl⟩
      next => cases ht
  | openCommand a =>
      simp only [ServiceState.clientStep, hclients, hpool] at ht ⊢
      split at ht
      next =>
          cases ht
          exact ⟨rfl, rfl, rfl⟩
      next =>
          cases ht
          exact ⟨rfl, rfl, rfl⟩
      next => cases ht
  | getCommand a cmd =>
      simp only [ServiceState.clientStep, hclients, hpool] at ht ⊢
      split at ht
      next hguard =>
          rw [if_pos hguard]
          split at ht
          next =>
              cases ht
              obtain ⟨hview, hsockets, hqueue⟩ := view_calledWith s a cmd
              exact ⟨congrArg some hview.symm, hsockets, hqueue⟩
          next buf pool _ _ =>
              cases ht
              obtain ⟨hview, hsockets, hqueue⟩ :=
                view_calledWith { s with freeCommandPool := pool } a cmd
              refine ⟨congrArg (fun u => some (ServiceState.setClientPc u a _)) hview.symm, ?_, ?_⟩
              · exact hsockets
              · exact hqueue
          next => cases ht
      next => cases ht
  | acceptTake a i =>
      simp only [ServiceState.clientStep, hclients, hrings] at ht ⊢
      split at ht
      next =>
          cases ht
          exact ⟨rfl, rfl, rfl⟩
      next =>
          cases ht
          exact ⟨rfl, rfl, rfl⟩
      next => cases ht
  | acceptSlot a =>
      simp only [ServiceState.clientStep, hclients, hfree] at ht ⊢
      split at ht
      next =>
          cases ht
          exact ⟨rfl, rfl, rfl⟩
      next =>
          cases ht
          exact ⟨rfl, rfl, rfl⟩
      next => cases ht
  | post a =>
      simp only [ServiceState.clientStep, hclients] at ht ⊢
      split at ht
      next c _ =>
          cases ht
          obtain ⟨hview, hsockets, hqueue⟩ := view_post s a c
          exact ⟨congrArg some hview.symm, hsockets, hqueue⟩
      next => cases ht
  | dequeueRx i =>
      simp only [ServiceState.clientStep, hrings] at ht ⊢
      split at ht
      next =>
          cases ht
          exact ⟨rfl, rfl, rfl⟩
      next => cases ht

theorem WaitInv.clientStep (h : WaitInv s) {step : ServiceStep} (ht : s.clientStep step = some t) :
    WaitInv t := by
  obtain ⟨hview, hsockets, hqueue⟩ := view_clientStep ht
  refine ⟨h.inv.clientStep hview, ?_⟩
  rw [hsockets, hqueue]
  exact h.alive

end View

/-! ## Commands -/

section WaitingCommands

variable {s t : ServiceState} {i k : ℕ}

/-- A socket that nobody has gets the slot that nobody has. -/
theorem WaitInv.bind (h : WaitInv s) {d : Satelite} (hd : d.socket = some k) (hk : k < s.next)
    (hheld : ∀ holder, k ∉ socketsHeld s holder) (hi : ∀ holder, i ∉ slotsHeld s holder) :
    WaitInv ((s.appGlueSetUserData k (some i)).setSatelite i d) := by
  have hdata := h.inv.appGlueSetUserData (k := k) (some i) fun j hj =>
    absurd (mem_socketsHeld_slot.mpr hj) (hheld (.slot j))
  have huser := congrArg Socket.userData
    (s.view.setSocket_self k fun sock => { sock with userData := some i })
  have hreleased := congrArg Socket.released
    (s.view.setSocket_self k fun sock => { sock with userData := some i })
  have hbound := hdata.bindSatelite hd ⟨hk, hreleased⟩ hheld hi huser
  refine ⟨?_, fun j hj => ?_⟩
  · rw [← view_appGlueSetUserData] at hbound
    exact hbound
  · have hkept : ((s.appGlueSetUserData k (some i)).sockets j).released =
        (s.sockets j).released := by
      unfold ServiceState.appGlueSetUserData
      by_cases hjk : j = k
      · subst hjk
        rw [ServiceState.setSocket_self]
      · rw [ServiceState.setSocket_of_ne _ hjk]
    exact hkept.trans (h.alive j hj)

theorem WaitInv.processOpen (h : WaitInv s) (o : Answers) (type : SockType) (parent : Option ℕ)
    (hi : ∀ holder, i ∉ slotsHeld s holder) :
    Outcome.Keeps WaitInv (s.processCommand o (.openSocket i type parent)) := by
  unfold ServiceState.processCommand
  dsimp only
  split
  · have hsame := sameWaiting_appGlueCreateSocket s type o.writeable
    have hheld : ∀ holder, s.next ∉ socketsHeld (s.appGlueCreateSocket type o.writeable).2 holder :=
      fun holder hmem => lt_irrefl _ (h.inv.held holder _ ((hsame.held holder).subset hmem)).1
    have hnext : s.next < (s.appGlueCreateSocket type o.writeable).2.next := by
      unfold ServiceState.appGlueCreateSocket
      dsimp only
      split
      · exact Nat.lt_succ_self _
      · exact Nat.lt_of_lt_of_le (Nat.lt_succ_self s.next)
          (sameWaiting_appGlueSockWriteSpace (s.newSocket { Socket.unborn with type }) _ _).next
    rw [← hsame.slots] at hi
    have hbound := (h.congr hsame).bind (d := ⟨some s.next, some i, parent⟩) rfl hnext hheld hi
    exact hbound.congr (sameWaiting_received (.call _ _ _))
  · exact h

theorem WaitInv.processSetSocketRing (h : WaitInv s) (o : Answers) (hk : k < s.next)
    (hheld : ∀ holder, k ∉ socketsHeld s holder) (hi : ∀ holder, i ∉ slotsHeld s holder) :
    Outcome.Keeps WaitInv (s.processCommand o (.setSocketRing i k)) := by
  have hbound := h.bind (d := { s.satelite i with socket := some k, ringsetIdx := some i })
    rfl hk hheld hi
  have hcall := hbound.congr (sameWaiting_received (.call _ .streamWspace k))
  unfold ServiceState.processCommand
  exact (onlyReceived_userDataAvailableCbk _ _ o.available).mono fun _ ht =>
    hcall.congr (sameWaiting_received ht)

/-- The end of `app_glue_close_socket`, on a socket that no slot has. -/
theorem WaitInv.release (h : WaitInv s) (hfree : ∀ i, (s.satelite i).socket ≠ some k)
    (hwaits : k ∉ s.queue .buffersAvailable) :
    WaitInv ((s.appGlueSetUserData k none).kernelClose k) := by
  have hdata := h.inv.appGlueSetUserData (k := k) none fun i hi => absurd hi (hfree i)
  rw [← view_appGlueSetUserData] at hdata
  refine ⟨?_, fun j hj => ?_⟩
  · rw [view_kernelClose]
    exact hdata
  · have hjk : j ≠ k := fun hjk => hwaits (hjk ▸ hj)
    refine Eq.trans ?_ (h.alive j hj)
    unfold ServiceState.kernelClose
    rw [ServiceState.setSocket_of_ne _ hjk]
    show ((s.appGlueSetUserData k none).sockets j).released = _
    unfold ServiceState.appGlueSetUserData
    rw [ServiceState.setSocket_of_ne _ hjk]

/-- A slot gives up its socket, which does not wait. -/
theorem WaitInv.clearSatelite (h : WaitInv s) (hk : (s.satelite i).socket = some k)
    (hwaits : k ∉ s.queue .buffersAvailable) :
    WaitInv (s.setSatelite i .empty) ∧
      (∀ j, ((s.setSatelite i .empty).satelite j).socket ≠ some k) ∧
      ∀ holder, i ∉ slotsHeld (s.setSatelite i .empty) holder := by
  obtain ⟨hclear, hnone, hfree⟩ := h.inv.clearSatelite (d := .empty) hk hwaits rfl
  refine ⟨⟨hclear, h.alive⟩, fun j hj => ?_, hfree⟩
  exact hnone (.slot j) (mem_socketsHeld_slot.mpr hj)

theorem WaitInv.processClose (h : WaitInv s) (o : Answers)
    (hwaits : ∀ k ∈ (s.satelite i).socket, k ∉ s.queue .buffersAvailable) :
    Outcome.Keeps WaitInv (s.processCommand o (.close i)) := by
  simp only [ServiceState.processCommand]
  cases hk : (s.satelite i).socket with
  | none => exact h
  | some k =>
      obtain ⟨t, ht, hflush, -, -, hqueue⟩ := sameWaiting_userFlushRxTx s k
      have hsame := hflush.trans (sameWaiting_leaveLists t k o.waiting)
      have hk' := (hsame.socket i).trans hk
      have hwaits' : k ∉ (t.leaveLists k o.waiting).queue .buffersAvailable := by
        rw [hsame.queue]
        exact hwaits k hk
      obtain ⟨hclear, hnone, hfree⟩ := (h.congr hsame).clearSatelite hk' hwaits'
      have hclosed := hclear.release hnone hwaits'
      have hswap : (t.appGlueCloseSocket k o.waiting).setSatelite i .empty =
          (((t.leaveLists k o.waiting).setSatelite i .empty).appGlueSetUserData k none).kernelClose
            k := rfl
      dsimp only
      rw [ht]
      rw [← hswap] at hclosed
      exact ⟨hclosed.inv.freeSocket hfree, hclosed.alive⟩

theorem WaitInv.processDecline (h : WaitInv s) (o : Answers)
    (hheld : ∀ holder, k ∉ socketsHeld s holder) :
    Outcome.Keeps WaitInv (s.processCommand o (.decline k)) := by
  obtain ⟨t, ht, hflush, -⟩ := sameWaiting_userFlushRxTx s k
  have hsame := hflush.trans (sameWaiting_leaveLists t k o.waiting)
  have hfree : ∀ i, (s.satelite i).socket ≠ some k := fun i hi =>
    hheld (.slot i) (mem_socketsHeld_slot.mpr hi)
  have hwaits : k ∉ s.queue .buffersAvailable := by
    intro hk
    obtain ⟨i, hi⟩ := h.inv.waits k hk
    exact hfree i hi
  unfold ServiceState.processCommand
  dsimp only
  rw [ht]
  refine (h.congr hsame).release (fun i => ?_) ?_
  · rw [hsame.socket]
    exact hfree i
  · rw [hsame.queue]
    exact hwaits

theorem WaitInv.processTxPoolEmpty (h : WaitInv s) (o : Answers)
    (halive : ∀ k ∈ (s.satelite i).socket, (s.sockets k).released = false) :
    Outcome.Keeps WaitInv (s.processCommand o (.txPoolEmpty i)) := by
  simp only [ServiceState.processCommand]
  cases hk : (s.satelite i).socket with
  | none => exact h
  | some k =>
      dsimp only
      split
      next => exact h
      next habsent =>
          have hinsert : WaitInv (s.insertTail .buffersAvailable k) := by
            refine ⟨?_, fun j hj => ?_⟩
            · rw [view_insertTail]
              refine h.inv.insertTail (h.inv.live_of_socket hk) ?_ fun _ => ⟨i, hk⟩
              exact Bool.eq_false_iff.mpr habsent
            · refine (setPresent_same s .buffersAvailable k true j).1.trans ?_
              rcases (mem_queue_insertTail s _ _ k j).mp hj with hj | ⟨rfl, -⟩
              · exact h.alive j hj
              · exact halive j hk
          show WaitInv (if _ then _ else _)
          split
          · exact hinsert.congr (sameWaiting_received (.call _ _ _))
          · exact hinsert

theorem sameWaiting_select (s : ServiceState) (i : ℕ) (select : Option ℕ) :
    SameWaiting s (s.setSatelite i { s.satelite i with parentIdx := select }) := by
  have hands : SameHands s (s.setSatelite i { s.satelite i with parentIdx := select }) := by
    refine .of ⟨rfl, rfl, rfl, fun _ => rfl⟩ ⟨rfl, rfl, rfl, fun j => ?_, rfl⟩
    by_cases hj : j = i
    · subst hj
      simp [ServiceState.setSatelite]
    · simp [ServiceState.setSatelite, hj]
  exact sameWaiting_of_hands hands le_rfl rfl (fun _ => .inl rfl) (fun _ _ => rfl)
    fun _ _ _ => rfl

/-- `process_commands` on one command, taken from the ring. -/
theorem WaitInv.processCommand (h : WaitInv s) (o : Answers) (cmd : Command)
    (hdescr : ∀ k ∈ cmd.descr, k < s.next ∧ ∀ holder, k ∉ socketsHeld s holder)
    (hopens : ∀ i ∈ cmd.opens, ∀ holder, i ∉ slotsHeld s holder)
    (hok : s.waitsOk cmd) : Outcome.Keeps WaitInv (s.processCommand o cmd) := by
  have hchange : ∀ {r : Outcome}, r.Keeps (SameWaiting s) → r.Keeps WaitInv := fun hr =>
    hr.mono fun _ ht => h.congr ht
  cases cmd with
  | openSocket i type parent => exact h.processOpen o type parent (hopens i rfl)
  | connect i =>
      refine hchange ?_
      simp only [ServiceState.processCommand]
      cases (s.satelite i).socket with
      | none => exact .refl s
      | some k => exact sameWaiting_stateChange s k o.skState
  | bind i => exact h
  | listen i => exact hchange (sameWaiting_appGlueV4Listen s _ o.listens)
  | close i => exact h.processClose o hok
  | txKick i =>
      exact hchange ((onlyReceived_userOnTransmissionOpportunity s _ o.sent).mono
        fun _ => sameWaiting_received)
  | rxKick i =>
      exact hchange ((onlyReceived_userDataAvailableCbk s _ o.available).mono
        fun _ => sameWaiting_received)
  | setSocketRing i k =>
      obtain ⟨hk, hheld⟩ := hdescr k rfl
      exact h.processSetSocketRing o hk hheld (hopens i rfl)
  | setSocketSelect i select =>
      refine hchange ?_
      exact (onlyReceived_userDataAvailableCbk _ _ o.available).mono fun _ ht =>
        (sameWaiting_select s i select).trans (sameWaiting_received ht)
  | txPoolEmpty i => exact h.processTxPoolEmpty o hok
  | setsockopt i => exact h
  | shutdown i =>
      refine hchange ?_
      simp only [ServiceState.processCommand]
      cases (s.satelite i).socket with
      | none => exact .refl s
      | some k => exact sameWaiting_inetShutdown s k o.skState
  | decline k => exact h.processDecline o (hdescr k rfl).2
  | other => exact h

theorem WaitInv.processCommands (h : WaitInv s) (o : Answers)
    (hok : ∀ c ∈ s.commandRing.items.head?, s.waitsOk c.cmd) :
    Outcome.Keeps WaitInv (s.processCommands o) := by
  unfold ServiceState.processCommands
  cases hring : s.commandRing.dequeue with
  | none => exact h
  | some taken =>
      obtain ⟨c, ring⟩ := taken
      have hitems := (Ring.dequeue_eq_some_iff _ _ _).mp hring
      obtain ⟨hinv, hdescr, hopens⟩ := h.inv.dequeueCommand hitems
      have htaken : WaitInv { s with commandRing := ring } := ⟨hinv, h.alive⟩
      have hguard : s.waitsOk c.cmd := hok c (by rw [hitems]; rfl)
      have hcommand := htaken.processCommand o c.cmd
        (fun k hk => ⟨(hdescr k hk).1.1, (hdescr k hk).2⟩) hopens (by
          cases hcmd : c.cmd <;> rw [hcmd] at hguard <;> exact hguard)
      exact hcommand.bind (fun _ ht => ht) fun t ht =>
        ht.congr (sameWaiting_with t _ _ _ _ _ _ _)

end WaitingCommands

/-! ## The main loop -/

section WaitingLoop

variable {s t : ServiceState} {k : ℕ}

theorem WaitInv.acceptRound (h : WaitInv s) : Outcome.Keeps WaitInv (s.acceptRound k) := by
  have hsame := sameWaiting_kernelAccept s k
  have hnew := h.congr hsame
  have hheld : ∀ holder, s.next ∉ socketsHeld (s.kernelAccept k).2 holder := fun holder hmem =>
    lt_irrefl _ (h.inv.held holder _ ((hsame.held holder).subset hmem)).1
  rw [acceptRound_eq]
  cases s.freeCommandPool with
  | nil => exact hnew
  | cons buf pool =>
      have hpool : WaitInv { (s.kernelAccept k).2 with freeCommandPool := pool } :=
        hnew.congr (sameWaiting_with _ _ _ pool _ _ _ _)
      have hcall := hpool.congr (sameWaiting_received (.call _ .getUserData k))
      have hfree : ∀ i, ((s.kernelAccept k).2.satelite i).socket ≠ some s.next := fun i hi =>
        hheld (.slot i) (mem_socketsHeld_slot.mpr hi)
      have hdata := hcall.inv.appGlueSetUserData (k := s.next) none fun i hi =>
        absurd hi (hfree i)
      rw [← view_appGlueSetUserData] at hdata
      have halive : ∀ j ∈ (s.kernelAccept k).2.queue .buffersAvailable,
          ((ServiceState.appGlueSetUserData (ServiceState.call
            { (s.kernelAccept k).2 with freeCommandPool := pool } .getUserData k)
              s.next none).sockets j).released = false := by
        intro j hj
        refine Eq.trans ?_ (hnew.alive j hj)
        unfold ServiceState.appGlueSetUserData
        by_cases hjn : j = s.next
        · subst hjn
          rw [ServiceState.setSocket_self]
          rfl
        · rw [ServiceState.setSocket_of_ne _ hjn]
          rfl
      dsimp only
      cases (s.sockets k).userData with
      | none => exact ⟨hdata, halive⟩
      | some i =>
          refine ⟨?_, ?_⟩
          · show ServiceInv (ServiceState.ipaugenblickPostAccepted _ buf s.next i).view
            rw [view_ipaugenblickPostAccepted]
            refine hdata.ipaugenblickPostAccepted ⟨Nat.lt_succ_self _, rfl⟩ hheld buf i
          · intro j hj
            have hpost : ∀ u : ServiceState, ((u.ipaugenblickPostAccepted buf s.next i).sockets =
                u.sockets) ∧ (u.ipaugenblickPostAccepted buf s.next i).queue = u.queue := by
              intro u
              unfold ServiceState.ipaugenblickPostAccepted
              split <;> exact ⟨rfl, rfl⟩
            change j ∈ (ServiceState.ipaugenblickPostAccepted _ buf s.next i).queue _ at hj
            rw [(hpost _).2] at hj
            show ((ServiceState.ipaugenblickPostAccepted _ buf s.next i).sockets j).released = false
            rw [(hpost _).1]
            exact halive j hj

/-- One round of the buffers-available loop. -/
theorem WaitInv.buffersRound (h : WaitInv s) (o : Answers) (k : ℕ) :
    Outcome.Keeps WaitInv (s.buffersRound o k) := by
  have hcall := h.congr (sameWaiting_received (.call s .getUserData k))
  refine buffersRound_keeps o hcall (fun i k' _ => ?_) (fun t ht => ?_) fun t ht => ?_
  · exact hcall.congr (sameWaiting_received (.call _ _ _))
  · refine ⟨?_, fun j hj => ?_⟩
    · rw [view_remove]
      exact ht.inv.remove k .buffersAvailable
    · refine (setPresent_same t .buffersAvailable k false j).1.trans (ht.alive j ?_)
      have hleft : j ∈ (t.queue .buffersAvailable).erase k := by
        simpa [ServiceState.remove] using hj
      exact List.mem_of_mem_erase hleft
  · exact ht.congr (sameWaiting_with t _ _ _ _ _ _ _)

/-- One round of the closed-list loop on a socket that does not wait. -/
theorem WaitInv.closingRound (h : WaitInv s) (hk : k ∉ s.queue .buffersAvailable) :
    Outcome.Keeps WaitInv (do
      let s ← s.userOnSocketFatal k
      return ((s.remove .closed k).hold k (-1)).kernelClose k) := by
  obtain ⟨t, ht, hflush, -, -, hqueue⟩ := sameWaiting_userFlushRxTx s k
  unfold ServiceState.userOnSocketFatal
  rw [ht]
  show WaitInv ((((t.call .getUserData k).remove .closed k).hold k (-1)).kernelClose k)
  have hsame := ((hflush.trans (sameWaiting_received (.call t .getUserData k))).trans
    (sameWaiting_remove _ .closed nofun k)).trans (sameWaiting_hold _ k (-1))
  refine h.congr (hsame.trans (sameWaiting_kernelClose ?_))
  rw [hsame.queue]
  exact hk

theorem WaitInv.serviceStep (h : WaitInv s) (o : Answers) (hok : waitingOk s (.service o)) :
    Outcome.Keeps WaitInv (s.serviceStep o) := by
  have hmove : ∀ {t : ServiceState} (pc : ServicePc), WaitInv t → WaitInv { t with pc } :=
    fun pc ht => ht.congr (sameWaiting_with _ _ _ _ pc _ _ _)
  unfold ServiceState.serviceStep
  split
  next hat =>
      refine (h.processCommands o (hok.2 hat)).bind (fun _ ht => ht) fun t ht => ?_
      show WaitInv (if _ then _ else _)
      split
      · exact hmove _ ht
      · exact hmove _ ht
  next idx limit _ =>
      split
      · exact hmove _ h
      next k rest _ =>
          split
          · have hremove := h.congr (sameWaiting_remove s .write nofun k)
            exact (onlyReceived_userOnTransmissionOpportunity _ _ o.sent).bind
              (fun _ ht => hremove.congr (sameWaiting_received ht))
              fun _ ht => hmove _ (hremove.congr (sameWaiting_received ht))
          · exact hmove _ h
  next k idx limit _ =>
      exact hmove _ (h.congr ((sameWaiting_hold s k (-1)).trans (sameWaiting_count _ _ _)))
  next hat =>
      split
      · exact hmove _ h
      next k rest hqueue => exact h.closingRound (hok.1 hat k (by rw [hqueue]; rfl))
  next =>
      split
      · exact hmove _ h
      next k rest _ =>
          refine (userOnAccept_keeps h (fun _ ht _ => ht.acceptRound) o.waiting).bind
            (fun _ ht => ht) fun t ht => ?_
          exact ht.congr ((sameWaiting_remove t .accept nofun k).trans (sameWaiting_hold _ k (-1)))
  next idx limit _ =>
      split
      · exact hmove _ h
      next k rest _ =>
          split
          · have hremove := h.congr (sameWaiting_remove s .read nofun k)
            exact (onlyReceived_userDataAvailableCbk _ _ o.available).bind
              (fun _ ht => hremove.congr (sameWaiting_received ht))
              fun _ ht => hmove _ (hremove.congr (sameWaiting_received ht))
          · exact hmove _ h
  next k idx limit _ =>
      exact hmove _ (h.congr ((sameWaiting_hold s k (-1)).trans (sameWaiting_count _ _ _)))
  next =>
      split
      · exact hmove _ h
      · split
        · exact h.buffersRound o _
        · exact hmove _ h

end WaitingLoop

/-! ## Runs -/

theorem waitInv_settle {r : Outcome} (h : r.Keeps WaitInv) : WaitInv (ServiceState.settle r) := by
  cases r with
  | ok s => exact h
  | error e => exact WaitInv.congr h (sameWaiting_with _ _ _ _ _ _ _ _)

theorem waitInv_step {s t : ServiceState} {a : ServiceStep} (h : WaitInv s) (hok : waitingOk s a)
    (ht : serviceMachine.step s a = some t) : WaitInv t := by
  simp only [serviceMachine] at ht
  split at ht
  next => cases ht
  next =>
      split at ht
      next e =>
          obtain ⟨r, hr, rfl⟩ := Option.map_eq_some_iff.mp ht
          exact waitInv_settle ((sameWaiting_stackEvent hr).mono fun _ hsame => h.congr hsame)
      next o =>
          obtain rfl := Option.some.inj ht
          exact waitInv_settle (h.serviceStep o hok)
      next => exact h.clientStep ht

theorem waitInv_init : WaitInv serviceMachine.init where
  inv :=
    { unborn := fun _ _ => ⟨fun _ => Bool.and_false _, rfl⟩
      nodup := fun q => by
        show (if q = .buffersAvailable then [] else []).Nodup
        rw [ite_self]
        exact List.nodup_nil
      flags := fun q k => by
        show k ∈ (if q = .buffersAvailable then [] else []) ↔ (_ && false) = true
        simp
      alive := fun _ _ _ => rfl
      used := trivial
      closed := fun _ hk => nomatch hk
      sockets := serviceInv_init.sockets
      slots := serviceInv_init.slots
      held := fun holder k hk => ⟨(serviceInv_init.held holder k hk).1, rfl⟩
      bound := fun _ _ hk => nomatch hk
      waits := fun _ hk => nomatch hk }
  alive _ hk := nomatch hk

/-- **The buffers-available list holds live sockets**, each the socket of the slot that its user
data names, in every run in which no socket is freed while it waits for buffers and TX_POOL_EMPTY
finds no freed socket in its slot. -/
theorem buffers_list_live {s : ServiceState} (hreach : serviceMachine.ReachableWhere waitingOk s) :
    s.BuffersListed := by
  have hinv : WaitInv s := by
    refine serviceMachine.invariant_of_step waitInv_init ?_ hreach
    intro s a t h hok hstep
    exact waitInv_step h hok hstep
  exact hinv.buffersListed

instance (s : ServiceState) : ∀ cmd, Decidable (s.waitsOk cmd)
  | .close i => inferInstanceAs (Decidable
      (∀ k ∈ (s.satelite i).socket, k ∉ s.queue .buffersAvailable))
  | .txPoolEmpty i => inferInstanceAs (Decidable
      (∀ k ∈ (s.satelite i).socket, (s.sockets k).released = false))
  | .openSocket _ _ _ | .connect _ | .bind _ | .listen _ | .txKick _ | .rxKick _
  | .setSocketRing _ _ | .setSocketSelect _ _ | .setsockopt _ | .shutdown _ | .decline _
  | .other => .isTrue trivial

instance (s : ServiceState) : ∀ a, Decidable (waitingOk s a)
  | .service _ => inferInstanceAs (Decidable
      ((s.pc = .closing → ∀ k ∈ (s.queue .closed).head?, k ∉ s.queue .buffersAvailable) ∧
        (s.pc = .commands → ∀ c ∈ s.commandRing.items.head?, s.waitsOk c.cmd)))
  | .stack _ | .takeSlot _ _ _ | .openCommand _ | .getCommand _ _ | .acceptTake _ _
  | .acceptSlot _ | .post _ | .dequeueRx _ => .isTrue trivial

/-- A connection is opened with a selector and its buffer pool is empty. -/
def poolEmptyRun : List ServiceStep :=
  [.takeSlot 0 .stream (some 0), .openCommand 0, .post 0, .service {}, .service {}, .service {},
    .service {}, .service {}, .service {}, .getCommand 0 (.txPoolEmpty 0), .post 0, .service {}]

theorem buffers_list_live_waiting :
    ∃ s, serviceMachine.ReachableWhere waitingOk s ∧ s.queue .buffersAvailable = [0] ∧
      s.BuffersListed := by
  have hrun : ((serviceMachine.restrict waitingOk).run poolEmptyRun).map
      (fun s => s.queue .buffersAvailable) = some [0] := by decide +kernel
  obtain ⟨s, hs, hqueue⟩ := Option.map_eq_some_iff.mp hrun
  have hreach := serviceMachine.reachableWhere_of_run hs
  exact ⟨s, hreach, hqueue, buffers_list_live hreach⟩

/-- Its peer resets it, and the closed-list loop frees the socket where it waits. -/
def resetWhileWaitingRun : List ServiceStep :=
  poolEmptyRun ++ [.stack (.errorReport 0), .service {}, .service {}]

theorem freed_socket_waits_for_buffers :
    ∃ s, serviceMachine.run resetWhileWaitingRun = some s ∧ 0 ∈ s.queue .buffersAvailable ∧
      (s.sockets 0).released = true ∧ ¬ s.BuffersListed := by
  have hrun : (serviceMachine.run resetWhileWaitingRun).map
      (fun s => (decide (0 ∈ s.queue .buffersAvailable), (s.sockets 0).released)) =
      some (true, true) := by decide +kernel
  obtain ⟨s, hs, hview⟩ := Option.map_eq_some_iff.mp hrun
  obtain ⟨hmem, hreleased⟩ := Prod.mk.inj hview
  have hmem := of_decide_eq_true hmem
  refine ⟨s, hs, hmem, hreleased, fun h => ?_⟩
  have halive := (h.live 0 hmem).2
  rw [hreleased] at halive
  cases halive

end IpAugenblick
