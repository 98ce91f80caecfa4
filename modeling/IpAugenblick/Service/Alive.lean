/-
# What brings the service down

The callbacks of the service end the process on a listening socket, and LISTEN on a slot
without a socket dereferences NULL.  `AliveInv` adds to the references of a socket what
keeps the service up: listening sockets are stream sockets with a slot and are not in the
read or write list, and the length of the read list is counted.  In the runs whose commands
keep clear of those callbacks the service does not come down.
-/

import IpAugenblick.Service.References

namespace IpAugenblick

open Lib

/-- The round of the read loop that has left the list and is still counted. -/
def ServicePc.counting : ServicePc → ℕ
  | .rxDone _ _ _ => 1
  | _ => 0

/-- What keeps the service up.  A listener is a stream socket with a slot and in neither list, as
the callbacks exit on a listening socket and dereference its slot; and the list of readers is no
longer than its counter, as a counter of zero is an exit too. -/
structure AliveInv (s : ServiceState) : Prop where
  listening : ∀ k, (s.sockets k).skState = .listen →
    (s.sockets k).type = .stream ∧ ∃ i, (s.satelite i).socket = some k
  quiet : ∀ k, k ∈ s.queue .read ∨ k ∈ s.queue .write → (s.sockets k).skState ≠ .listen
  counted : (s.queue .read).length + s.pc.counting ≤ s.readSocketsQueueLen
  up : s.crash = none

/-- An outcome in which the service is still up. -/
def Outcome.Up (P : ServiceState → Prop) : Outcome → Prop
  | .ok s => P s
  | .error _ => False

theorem Outcome.Up.bind {P Q : ServiceState → Prop} {r : Outcome} {f : ServiceState → Outcome}
    (hr : r.Up P) (hok : ∀ s, P s → (f s).Up Q) : Outcome.Up Q (r >>= f) := by
  cases r with
  | ok s => exact hok s hr
  | error e => exact hr.elim

theorem Outcome.Up.mono {P Q : ServiceState → Prop} {r : Outcome} (hr : r.Up P)
    (hle : ∀ s, P s → Q s) : r.Up Q := by
  cases r with
  | ok s => exact hle s hr
  | error e => exact hr.elim

theorem Outcome.Up.and {P Q : ServiceState → Prop} {r : Outcome} (hup : r.Up P)
    (hkeeps : r.Keeps Q) : r.Up fun s => Q s ∧ P s := by
  cases r with
  | ok s => exact ⟨hkeeps, hup⟩
  | error e => exact hup.elim

section Primitives

variable {s t : ServiceState} {k : ℕ}

/-- No socket starts to listen, no slot of a listening socket is given up, and no listening
socket enters the read or write list. -/
theorem AliveInv.step (h : AliveInv s)
    (hlisten : ∀ k, (t.sockets k).skState = .listen →
      (s.sockets k).skState = .listen ∧ (t.sockets k).type = (s.sockets k).type)
    (hslot : ∀ i k, (s.satelite i).socket = some k → (t.sockets k).skState = .listen →
      (t.satelite i).socket = some k)
    (hquiet : ∀ k, k ∈ t.queue .read ∨ k ∈ t.queue .write →
      (k ∈ s.queue .read ∨ k ∈ s.queue .write) ∨ (t.sockets k).skState ≠ .listen)
    (hcrash : t.crash = s.crash)
    (hcount : (t.queue .read).length + t.pc.counting ≤ t.readSocketsQueueLen) : AliveInv t where
  listening k hk := by
    obtain ⟨hk', htype⟩ := hlisten k hk
    obtain ⟨hstream, i, hi⟩ := h.listening k hk'
    exact ⟨htype.trans hstream, i, hslot i k hi hk⟩
  quiet k hk hl := by
    rcases hquiet k hk with hold | hnew
    · exact h.quiet k hold (hlisten k hl).1
    · exact hnew hl
  counted := hcount
  up := hcrash.trans h.up

/-- Nothing that matters changes. -/
theorem AliveInv.same (h : AliveInv s) (hsockets : t.sockets = s.sockets)
    (hsatelite : t.satelite = s.satelite) (hqueue : t.queue = s.queue)
    (hlen : t.readSocketsQueueLen = s.readSocketsQueueLen) (hpc : t.pc = s.pc)
    (hcrash : t.crash = s.crash) : AliveInv t := by
  refine h.step ?_ ?_ ?_ hcrash ?_
  · rw [hsockets]
    exact fun _ hk => ⟨hk, rfl⟩
  · rw [hsatelite]
    exact fun _ _ hk _ => hk
  · rw [hqueue]
    exact fun _ hk => .inl hk
  · rw [hqueue, hlen, hpc]
    exact h.counted

theorem AliveInv.onlyReceived (h : AliveInv s) (hst : OnlyReceived s t) : AliveInv t := by
  obtain ⟨calls, rings, rfl, -⟩ := hst
  exact h.same rfl rfl rfl rfl rfl rfl

/-- A change to one socket that does not make it listen. -/
theorem AliveInv.setSocket (h : AliveInv s) {f : Socket → Socket}
    (hstate : (f (s.sockets k)).skState = .listen → (s.sockets k).skState = .listen)
    (htype : (f (s.sockets k)).type = (s.sockets k).type) : AliveInv (s.setSocket k f) := by
  have hsock : ∀ j, ((s.setSocket k f).sockets j).skState = .listen →
      (s.sockets j).skState = .listen ∧ ((s.setSocket k f).sockets j).type = (s.sockets j).type := by
    intro j hj
    by_cases hjk : j = k
    · subst hjk
      rw [ServiceState.setSocket_self] at hj ⊢
      exact ⟨hstate hj, htype⟩
    · rw [ServiceState.setSocket_of_ne s hjk] at hj ⊢
      exact ⟨hj, rfl⟩
  exact h.step hsock (fun _ _ hk _ => hk) (fun _ hk => .inl hk) rfl h.counted

theorem AliveInv.hold (h : AliveInv s) (k : ℕ) (d : ℤ) : AliveInv (s.hold k d) :=
  h.setSocket id rfl

theorem AliveInv.setUserData (h : AliveInv s) (k : ℕ) (data : Option ℕ) :
    AliveInv (s.appGlueSetUserData k data) := h.setSocket id rfl

theorem AliveInv.setPresent (h : AliveInv s) (q : SocketQueue) (k : ℕ) (b : Bool) :
    AliveInv (s.setPresent q k b) := h.setSocket id rfl

theorem skState_setPresent (s : ServiceState) (q : SocketQueue) (k : ℕ) (b : Bool) (j : ℕ) :
    ((s.setPresent q k b).sockets j).skState = (s.sockets j).skState := by
  unfold ServiceState.setPresent
  by_cases hj : j = k
  · subst hj
    simp
  · simp [hj]

theorem AliveInv.stateChange (h : AliveInv s) (k : ℕ) (st : TcpState) :
    AliveInv (s.stateChange k st) := by
  unfold ServiceState.stateChange
  split
  · exact h
  next hne => exact h.setSocket (fun hst => absurd (.inr hst) hne) rfl

theorem AliveInv.inetShutdown (h : AliveInv s) (k : ℕ) (st : TcpState) :
    AliveInv (s.inetShutdown k st) := by
  unfold ServiceState.inetShutdown
  split
  · exact h.setSocket (nomatch ·) rfl
  · exact h.stateChange k st

theorem AliveInv.newSocket (h : AliveInv s) {sock : Socket} (hstate : sock.skState ≠ .listen) :
    AliveInv (s.newSocket sock) := by
  have hsock : ∀ j, ((s.newSocket sock).sockets j).skState = .listen →
      (s.sockets j).skState = .listen ∧
        ((s.newSocket sock).sockets j).type = (s.sockets j).type := by
    intro j hj
    by_cases hjn : j = s.next
    · subst hjn
      simp only [ServiceState.newSocket, Function.update_self] at hj
      exact absurd hj hstate
    · simp only [ServiceState.newSocket, Function.update_of_ne hjn] at hj ⊢
      exact ⟨hj, trivial⟩
  exact h.step hsock (fun _ _ hk _ => hk) (fun _ hk => .inl hk) rfl h.counted

theorem AliveInv.kernelClose (h : AliveInv s) (k : ℕ) : AliveInv (s.kernelClose k) := by
  have hcall : AliveInv (s.call .close k) := h.same rfl rfl rfl rfl rfl rfl
  refine hcall.setSocket (fun hst => ?_) rfl
  dsimp only at hst
  split at hst
  · cases hst
  · exact hst

/-- A slot gives up a socket that does not listen, gets one, or changes otherwise. -/
theorem AliveInv.setSatelite (h : AliveInv s) {i : ℕ} {d : Satelite}
    (hslot : ∀ k, (s.satelite i).socket = some k → (s.sockets k).skState = .listen →
      d.socket = some k) : AliveInv (s.setSatelite i d) := by
  refine h.step (fun _ hk => ⟨hk, rfl⟩) (fun j k hk hl => ?_) (fun _ hk => .inl hk) rfl h.counted
  by_cases hj : j = i
  · subst hj
    simp only [ServiceState.setSatelite, Function.update_self]
    exact hslot k hk hl
  · simp only [ServiceState.setSatelite, Function.update_of_ne hj]
    exact hk

/-- A socket enters a list other than the read list. -/
theorem AliveInv.insertTail (h : AliveInv s) {q : SocketQueue} (hq : q ≠ .read)
    (hquiet : q = .write → (s.sockets k).skState ≠ .listen) : AliveInv (s.insertTail q k) := by
  refine (h.setPresent q k true).step (fun _ hk => ⟨hk, rfl⟩) (fun _ _ hk _ => hk)
    (fun j hj => ?_) rfl ?_
  · rw [mem_queue_insertTail, mem_queue_insertTail] at hj
    rcases hj with (hj | ⟨-, hr⟩) | (hj | ⟨rfl, hw⟩)
    · exact .inl (.inl hj)
    · exact absurd hr.symm hq
    · exact .inl (.inr hj)
    · refine .inr ?_
      exact fun hl => hquiet hw.symm ((skState_setPresent s q j true j).symm.trans hl)
  · show ((Function.update s.queue q (s.queue q ++ [k])) .read).length + _ ≤ _
    rw [Function.update_of_ne (Ne.symm hq)]
    exact h.counted

/-- A socket that does not listen enters the read list. -/
theorem AliveInv.enterRead (h : AliveInv s) (hquiet : (s.sockets k).skState ≠ .listen) :
    AliveInv ((s.insertTail .read k).count .read (· + 1)) := by
  refine (h.setPresent .read k true).step (fun _ hk => ⟨hk, rfl⟩) (fun _ _ hk _ => hk)
    (fun j hj => ?_) rfl ?_
  · have hj' : j ∈ (s.insertTail .read k).queue .read ∨ j ∈ (s.insertTail .read k).queue .write :=
      hj
    rw [mem_queue_insertTail, mem_queue_insertTail] at hj'
    rcases hj' with (hj | ⟨rfl, -⟩) | (hj | ⟨-, hw⟩)
    · exact .inl (.inl hj)
    · refine .inr ?_
      exact fun hl => hquiet ((skState_setPresent s .read j true j).symm.trans hl)
    · exact .inl (.inr hj)
    · cases hw
  · show ((Function.update s.queue .read (s.queue .read ++ [k])) .read).length + _ ≤ _
    rw [Function.update_self, List.length_append]
    have := h.counted
    simp only [List.length_singleton]
    show _ + 1 + s.pc.counting ≤ s.readSocketsQueueLen + 1
    omega

theorem length_remove_le (s : ServiceState) (q r : SocketQueue) (k : ℕ) :
    ((s.remove q k).queue r).length ≤ (s.queue r).length := by
  by_cases hr : r = q
  · subst hr
    simp only [ServiceState.remove, Function.update_self]
    exact List.length_erase_le
  · simp only [ServiceState.remove, Function.update_of_ne hr]
    exact le_rfl

theorem mem_of_mem_remove {q r : SocketQueue} {j : ℕ} (hj : j ∈ (s.remove q k).queue r) :
    j ∈ s.queue r := by
  by_cases hr : r = q
  · subst hr
    simp only [ServiceState.remove, Function.update_self] at hj
    exact List.mem_of_mem_erase hj
  · simpa only [ServiceState.remove, Function.update_of_ne hr] using hj

theorem AliveInv.remove (h : AliveInv s) (q : SocketQueue) (k : ℕ) : AliveInv (s.remove q k) := by
  refine (h.setPresent q k false).step (fun _ hk => ⟨hk, rfl⟩) (fun _ _ hk _ => hk)
    (fun j hj => .inl (hj.imp mem_of_mem_remove mem_of_mem_remove)) rfl ?_
  have hlength := length_remove_le s q .read k
  have hcounted := h.counted
  show _ + s.pc.counting ≤ s.readSocketsQueueLen
  omega

end Primitives

section Callbacks

variable {s t : ServiceState} {k : ℕ}

theorem up_userDataAvailableCbk {sock : Option ℕ}
    (hquiet : ∀ k ∈ sock, (s.sockets k).skState ≠ .listen) (available : ℕ) :
    Outcome.Up (OnlyReceived s) (s.userDataAvailableCbk sock available) := by
  cases sock with
  | none => exact .refl s
  | some k =>
      have hcall := OnlyReceived.call s .getUserData k
      simp only [ServiceState.userDataAvailableCbk, ServiceState.getUserData_bind]
      cases (s.sockets k).userData with
      | none => exact hcall
      | some i =>
          dsimp only
          split
          next hlisten => exact absurd hlisten (hquiet k rfl)
          · exact hcall.trans (onlyReceived_receiveLoop k i _ available _)

theorem up_userOnTransmissionOpportunity {sock : Option ℕ}
    (hquiet : ∀ k ∈ sock, (s.sockets k).skState ≠ .listen) (sent : ℕ) :
    Outcome.Up (OnlyReceived s) (s.userOnTransmissionOpportunity sock sent) := by
  cases sock with
  | none => exact .refl s
  | some k =>
      have hcall := OnlyReceived.call s .getUserData k
      simp only [ServiceState.userOnTransmissionOpportunity, ServiceState.getUserData_bind]
      cases (s.sockets k).userData with
      | none => exact hcall
      | some i =>
          dsimp only
          split
          next hlisten => exact absurd hlisten (hquiet k rfl)
          · split
            · cases sent with
              | zero => exact hcall
              | succ pages => exact hcall.trans (onlyReceived_sendLoop k pages _)
            · exact hcall.trans (onlyReceived_sendmsgLoop k sent _)
            · exact hcall.trans (onlyReceived_sendmsgLoop k sent _)

theorem AliveInv.userFlushRxTx (h : AliveInv s) (k : ℕ) :
    Outcome.Up (fun t => AliveInv t ∧ t.satelite = s.satelite) (s.userFlushRxTx k) := by
  rw [userFlushRxTx_eq]
  cases (s.sockets k).userData with
  | none => exact ⟨h.same rfl rfl rfl rfl rfl rfl, rfl⟩
  | some i => exact ⟨h.same rfl rfl rfl rfl rfl rfl, rfl⟩

theorem AliveInv.kernelAccept (h : AliveInv s) (k : ℕ) : AliveInv (s.kernelAccept k).2 := by
  have hnew : AliveInv (s.newSocket
      { type := (s.sockets k).type
        skState := .established
        userData := (s.sockets k).userData
        present := fun _ => false
        holds := 0
        released := false }) := h.newSocket nofun
  exact hnew.same rfl rfl rfl rfl rfl rfl

theorem AliveInv.closeWaiting (h : AliveInv s) (k waiting : ℕ) :
    AliveInv (ServiceState.closeWaiting k waiting s) := by
  induction waiting generalizing s with
  | zero => exact h
  | succ waiting ih =>
      unfold ServiceState.closeWaiting
      split
      · exact h
      · exact ih ((h.kernelAccept k).kernelClose s.next)

theorem AliveInv.leave (h : AliveInv s) (hinv : ServiceInv s) (q : SocketQueue) (k : ℕ) :
    AliveInv (s.leave q k) := by
  unfold ServiceState.leave
  split
  next hpresent =>
      have hremove := h.remove q k
      cases q with
      | read =>
          have hmem : k ∈ s.queue .read := (hinv.flags .read k).mpr hpresent
          refine hremove.step (fun _ hk => ⟨hk, rfl⟩) (fun _ _ hk _ => hk) (fun _ hk => .inl hk)
            rfl ?_
          show ((Function.update s.queue .read ((s.queue .read).erase k)) .read).length +
            s.pc.counting ≤ s.readSocketsQueueLen - 1
          rw [Function.update_self, List.length_erase_of_mem hmem]
          have hpos := List.length_pos_of_mem hmem
          have hcounted := h.counted
          omega
      | write => exact hremove.same rfl rfl rfl rfl rfl rfl
      | accept => exact hremove
      | closed => exact hremove
      | buffersAvailable => exact hremove
  next => exact h

theorem AliveInv.leaveLists (h : AliveInv s) (hinv : ServiceInv s) (hlive : s.Live k)
    (waiting : ℕ) : AliveInv (s.leaveLists k waiting) := by
  obtain ⟨hread, -⟩ := (Left.refl hinv hlive).leave .read
  obtain ⟨hwrite, -⟩ := (Left.refl hread.inv hread.live).leave .write
  have hleft := (h.leave hinv .read k).leave hread.inv .write k
  unfold ServiceState.leaveLists
  dsimp only
  split
  next =>
      obtain ⟨hclosed, -⟩ := hwrite.inv.closeWaiting hwrite.live.1 waiting
      exact ((hleft.closeWaiting k waiting).remove .accept k).leave (hclosed.remove k .accept)
        .closed k
  next => exact hleft.leave hwrite.inv .closed k

theorem AliveInv.appGlueCloseSocket (h : AliveInv s) (hinv : ServiceInv s) (hlive : s.Live k)
    (waiting : ℕ) : AliveInv (s.appGlueCloseSocket k waiting) :=
  ((h.leaveLists hinv hlive waiting).setUserData k none).kernelClose k

theorem AliveInv.acceptRound (h : AliveInv s) (huser : (s.sockets k).userData ≠ none) :
    Outcome.Up AliveInv (s.acceptRound k) := by
  have hnew := h.kernelAccept k
  rw [acceptRound_eq]
  cases s.freeCommandPool with
  | nil => exact hnew
  | cons buf pool =>
      have hcall : AliveInv (ServiceState.call
          { (s.kernelAccept k).2 with freeCommandPool := pool } .getUserData k) :=
        hnew.same rfl rfl rfl rfl rfl rfl
      have hdata := hcall.setUserData s.next none
      dsimp only
      cases hparent : (s.sockets k).userData with
      | none => exact absurd hparent huser
      | some i =>
          dsimp only
          show AliveInv (ServiceState.ipaugenblickPostAccepted _ buf s.next i)
          unfold ServiceState.ipaugenblickPostAccepted
          split
          · exact hdata.same rfl rfl rfl rfl rfl rfl
          · exact hdata.same rfl rfl rfl rfl rfl rfl

theorem userOnAccept_up {P : ServiceState → Prop} (hs : P s)
    (hround : ∀ t, P t → (t.sockets k).skState = .listen → Outcome.Up P (t.acceptRound k))
    (waiting : ℕ) : Outcome.Up P (ServiceState.userOnAccept k waiting s) := by
  induction waiting generalizing s with
  | zero => exact hs
  | succ waiting ih =>
      unfold ServiceState.userOnAccept
      split
      · exact hs
      next hlisten => exact (hround s hs (not_not.mp hlisten)).bind fun t ht => ih ht

theorem AliveInv.appGlueSockWriteSpace (h : AliveInv s) (k : ℕ) (writeable : Bool) :
    AliveInv (s.appGlueSockWriteSpace k writeable) := by
  unfold ServiceState.appGlueSockWriteSpace
  split
  · exact h
  · split
    · exact h
    next hstate =>
        split
        · exact h
        · have hquiet : ((s.hold k 1).sockets k).skState ≠ .listen := by
            intro hlisten
            have hlisten' : (s.sockets k).skState = .listen := by
              simpa [ServiceState.hold] using hlisten
            refine hstate ⟨?_, (h.listening k hlisten').1⟩
            rw [hlisten']
            decide
          have hinsert := (h.hold k 1).insertTail (k := k) (q := .write) (by decide) fun _ => hquiet
          exact hinsert.same rfl rfl rfl rfl rfl rfl

theorem AliveInv.appGlueCreateSocket (h : AliveInv s) (type : SockType) (writeable : Bool) :
    AliveInv (s.appGlueCreateSocket type writeable).2 := by
  have hnew : AliveInv (s.newSocket { Socket.unborn with type }) := h.newSocket (by
    show Socket.unborn.skState ≠ .listen
    decide)
  unfold ServiceState.appGlueCreateSocket
  dsimp only
  split
  · exact hnew
  · exact hnew.appGlueSockWriteSpace s.next writeable

end Callbacks

section Commands

variable {s : ServiceState}

/-- Data is looked for on a socket that does not listen, after some call. -/
theorem AliveInv.availableCbk (h : AliveInv s) (c : KernelCall) (j : ℕ) (sock : Option ℕ)
    (hquiet : ∀ k ∈ sock, (s.sockets k).skState ≠ .listen) (available : ℕ) :
    Outcome.Up AliveInv ((s.call c j).userDataAvailableCbk sock available) := by
  have hcall : AliveInv (s.call c j) := h.same rfl rfl rfl rfl rfl rfl
  exact (up_userDataAvailableCbk (s := s.call c j) hquiet available).mono fun _ ht =>
    hcall.onlyReceived ht

/-- A stream socket with a slot, in neither list, starts to listen. -/
theorem AliveInv.listen (h : AliveInv s) {i k : ℕ} (hk : (s.satelite i).socket = some k)
    (htype : (s.sockets k).type = .stream) (hread : k ∉ s.queue .read)
    (hwrite : k ∉ s.queue .write) :
    AliveInv (s.setSocket k fun sock => { sock with skState := .listen }) where
  listening j hj := by
    by_cases hjk : j = k
    · subst hjk
      refine ⟨?_, i, hk⟩
      rw [ServiceState.setSocket_self]
      exact htype
    · rw [ServiceState.setSocket_of_ne s hjk] at hj ⊢
      exact h.listening j hj
  quiet j hj := by
    have hjk : j ≠ k := by
      rintro rfl
      exact hj.elim hread hwrite
    rw [ServiceState.setSocket_of_ne s hjk]
    exact h.quiet j hj
  counted := h.counted
  up := h.up

/-- The commands that the callbacks of the service do not end on. -/
def commandOk (s : ServiceState) : Command → Prop
  | .listen i => ∃ k ∈ (s.satelite i).socket, k ∉ s.queue .read ∧ k ∉ s.queue .write
  | .txKick i => ∀ k ∈ (s.satelite i).socket, (s.sockets k).skState ≠ .listen
  | .rxKick i => ∀ k ∈ (s.satelite i).socket, (s.sockets k).skState ≠ .listen
  | .setSocketSelect i _ => ∀ k ∈ (s.satelite i).socket, (s.sockets k).skState ≠ .listen
  | _ => True

instance (s : ServiceState) : ∀ cmd, Decidable (commandOk s cmd)
  | .listen i => inferInstanceAs (Decidable
      (∃ k ∈ (s.satelite i).socket, k ∉ s.queue .read ∧ k ∉ s.queue .write))
  | .txKick i | .rxKick i | .setSocketSelect i _ => inferInstanceAs (Decidable
      (∀ k ∈ (s.satelite i).socket, (s.sockets k).skState ≠ .listen))
  | .openSocket _ _ _ | .connect _ | .bind _ | .close _ | .setSocketRing _ _ | .txPoolEmpty _
  | .setsockopt _ | .shutdown _ | .decline _ | .other => .isTrue trivial

theorem AliveInv.processClose (h : AliveInv s) (hinv : ServiceInv s) (o : Answers) (i : ℕ) :
    Outcome.Up AliveInv (s.processCommand o (.close i)) := by
  simp only [ServiceState.processCommand]
  cases hk : (s.satelite i).socket with
  | none => exact h
  | some k =>
      obtain ⟨t, ht, htinv, hsockets, hnext, -, hsatelite, -⟩ :=
        hinv.userFlushRxTx (hinv.live_of_socket hk).2
      have hflush := h.userFlushRxTx k
      dsimp only
      rw [ht] at hflush ⊢
      have hk' : (t.satelite i).socket = some k := by
        rw [hsatelite]
        exact hk
      have hlive := htinv.live_of_socket hk'
      have hclose := hflush.1.appGlueCloseSocket htinv hlive o.waiting
      have hslot : ((t.appGlueCloseSocket k o.waiting).satelite i).socket = some k := by
        show ((t.leaveLists k o.waiting).satelite i).socket = some k
        rw [(htinv.leaveLists hlive o.waiting).1.satelite]
        exact hk'
      have hclear : AliveInv ((t.appGlueCloseSocket k o.waiting).setSatelite i .empty) := by
        refine hclose.setSatelite fun j hj hl => ?_
        rw [hslot] at hj
        obtain rfl := Option.some.inj hj
        exact absurd hl (skState_kernelClose _ k)
      exact hclear.same rfl rfl rfl rfl rfl rfl

theorem AliveInv.processOpen (h : AliveInv s) (o : Answers) {i : ℕ} (type : SockType)
    (parent : Option ℕ) (hi : ∀ holder, i ∉ slotsHeld s holder) :
    Outcome.Up AliveInv (s.processCommand o (.openSocket i type parent)) := by
  show Outcome.Up AliveInv (if o.created then _ else _)
  split
  · have hnew := (h.appGlueCreateSocket type o.writeable).setUserData s.next (some i)
    have hbind : AliveInv (((s.appGlueCreateSocket type o.writeable).2.appGlueSetUserData s.next
        (some i)).setSatelite i ⟨some s.next, some i, parent⟩) := by
      refine hnew.setSatelite fun k hk _ => absurd ?_ (hi (.bound i))
      have hk' : (s.satelite i).socket = some k := by
        have hsame : (s.appGlueCreateSocket type o.writeable).2.satelite = s.satelite := by
          unfold ServiceState.appGlueCreateSocket ServiceState.appGlueSockWriteSpace
          dsimp only
          split
          · rfl
          · split
            · rfl
            · split
              · rfl
              · split <;> rfl
        rw [← hsame]
        exact hk
      rw [slotsHeld_of_socket hk']
      exact List.mem_singleton_self i
    exact hbind.same rfl rfl rfl rfl rfl rfl
  · exact h

theorem AliveInv.processSetSocketRing (h : AliveInv s) (o : Answers) {i k : ℕ}
    (hk : ∀ holder, k ∉ socketsHeld s holder) (hi : ∀ holder, i ∉ slotsHeld s holder) :
    Outcome.Up AliveInv (s.processCommand o (.setSocketRing i k)) := by
  have hquiet : (s.sockets k).skState ≠ .listen := by
    intro hl
    obtain ⟨-, j, hj⟩ := h.listening k hl
    exact hk (.slot j) (mem_socketsHeld_slot.mpr hj)
  have hbind : AliveInv ((s.appGlueSetUserData k (some i)).setSatelite i
      { s.satelite i with socket := some k, ringsetIdx := some i }) := by
    refine (h.setUserData k (some i)).setSatelite fun j hj _ => absurd ?_ (hi (.bound i))
    rw [slotsHeld_of_socket (show (s.satelite i).socket = some j from hj)]
    exact List.mem_singleton_self i
  refine hbind.availableCbk .streamWspace k (some k) (fun j hj => ?_) o.available
  obtain rfl := Option.some.inj hj
  have hsame : ((s.appGlueSetUserData k (some i)).sockets k).skState = (s.sockets k).skState := by
    unfold ServiceState.appGlueSetUserData
    rw [ServiceState.setSocket_self]
  exact fun hl => hquiet (hsame.symm.trans hl)

/-- `process_commands` on one command, taken from the ring. -/
theorem AliveInv.processCommand (h : AliveInv s) (hinv : ServiceInv s) (o : Answers)
    (cmd : Command) (hdescr : ∀ k ∈ cmd.descr, s.Live k ∧ ∀ holder, k ∉ socketsHeld s holder)
    (hopens : ∀ i ∈ cmd.opens, ∀ holder, i ∉ slotsHeld s holder) (hok : commandOk s cmd) :
    Outcome.Up AliveInv (s.processCommand o cmd) := by
  cases cmd with
  | openSocket i type parent => exact h.processOpen o type parent (hopens i rfl)
  | connect i =>
      simp only [ServiceState.processCommand]
      cases (s.satelite i).socket with
      | none => exact h
      | some k => exact h.stateChange k o.skState
  | bind i => exact h
  | listen i =>
      obtain ⟨k, hk, hread, hwrite⟩ := hok
      show Outcome.Up AliveInv (s.appGlueV4Listen (s.satelite i).socket o.listens)
      rw [hk]
      show Outcome.Up AliveInv (if _ then _ else _)
      split
      next hguard => exact h.listen hk hguard.2.1 hread hwrite
      next => exact h
  | close i => exact h.processClose hinv o i
  | txKick i =>
      exact (up_userOnTransmissionOpportunity hok o.sent).mono fun _ ht => h.onlyReceived ht
  | rxKick i => exact (up_userDataAvailableCbk hok o.available).mono fun _ ht => h.onlyReceived ht
  | setSocketRing i k => exact h.processSetSocketRing o (hdescr k rfl).2 (hopens i rfl)
  | setSocketSelect i select =>
      have hreset : AliveInv (s.setSatelite i { s.satelite i with parentIdx := select }) :=
        h.setSatelite fun k hk _ => hk
      have hself : (s.setSatelite i { s.satelite i with parentIdx := select }).satelite i =
          { s.satelite i with parentIdx := select } := Function.update_self _ _ _
      refine (up_userDataAvailableCbk (fun k hk => ?_) o.available).mono fun _ ht =>
        hreset.onlyReceived ht
      rw [hself] at hk
      exact hok k hk
  | txPoolEmpty i =>
      simp only [ServiceState.processCommand]
      cases (s.satelite i).socket with
      | none => exact h
      | some k =>
          show Outcome.Up AliveInv (if _ then _ else _)
          split
          · exact h
          · have hinsert := h.insertTail (k := k) (q := .buffersAvailable) (by decide) (by simp)
            show AliveInv (if _ then _ else _)
            split
            · exact hinsert.same rfl rfl rfl rfl rfl rfl
            · exact hinsert
  | setsockopt i => exact h
  | shutdown i =>
      simp only [ServiceState.processCommand]
      cases (s.satelite i).socket with
      | none => exact h
      | some k => exact h.inetShutdown k o.skState
  | decline k =>
      obtain ⟨hk, -⟩ := hdescr k rfl
      obtain ⟨t, ht, htinv, hsockets, hnext, -⟩ := hinv.userFlushRxTx hk.2
      have hflush := h.userFlushRxTx k
      show Outcome.Up AliveInv (s.userFlushRxTx k >>= _)
      rw [ht] at hflush ⊢
      refine hflush.1.appGlueCloseSocket htinv ⟨?_, ?_⟩ o.waiting
      · rw [hnext]
        exact hk.1
      · rw [hsockets]
        exact hk.2
  | other => exact h

end Commands

section Steps

variable {s : ServiceState}

/-- The guard of the runs that keep the service up: no reference to a freed socket is left
behind, no command is one that a callback ends on, and `ipaugenblick_accept` finds an
accepted connection in the ring. -/
def aliveOk (s : ServiceState) : ServiceStep → Prop
  | .service o => releaseOk s (.service o) ∧
      (s.pc = .commands → ∀ c ∈ s.commandRing.items.head?, commandOk s c.cmd)
  | .acceptTake _ i => ∀ e ∈ (s.rxRing i).items.head?, e ≠ .mbuf
  | _ => True

theorem releaseOk_of_aliveOk {a : ServiceStep} (h : aliveOk s a) : releaseOk s a := by
  cases a with
  | service o => exact h.1
  | _ => trivial

theorem AliveInv.processCommands (h : AliveInv s) (hinv : ServiceInv s) (o : Answers)
    (hok : ∀ c ∈ s.commandRing.items.head?, commandOk s c.cmd) :
    Outcome.Up AliveInv (s.processCommands o) := by
  unfold ServiceState.processCommands
  cases hring : s.commandRing.dequeue with
  | none => exact h
  | some taken =>
      obtain ⟨c, ring⟩ := taken
      have hitems := (Ring.dequeue_eq_some_iff _ _ _).mp hring
      obtain ⟨htinv, hdescr, hopens⟩ := hinv.dequeueCommand hitems
      have htaken : AliveInv { s with commandRing := ring } := h.same rfl rfl rfl rfl rfl rfl
      have hguard : commandOk { s with commandRing := ring } c.cmd := hok c (by rw [hitems]; rfl)
      have hcommand := htaken.processCommand htinv o c.cmd hdescr hopens hguard
      exact hcommand.bind fun t ht => ht.same rfl rfl rfl rfl rfl rfl

/-- The loop moves on to a point outside the read loop. -/
theorem AliveInv.setPc (h : AliveInv s) {pc : ServicePc} (hpc : pc.counting = 0) :
    AliveInv { s with pc } := by
  refine h.step (fun _ hk => ⟨hk, rfl⟩) (fun _ _ hk _ => hk) (fun _ hk => .inl hk) rfl ?_
  have hcounted := h.counted
  show (s.queue .read).length + pc.counting ≤ s.readSocketsQueueLen
  omega

theorem AliveInv.buffersRound (h : AliveInv s) (hinv : ServiceInv s) (o : Answers) {k : ℕ}
    (hk : k ∈ s.queue .buffersAvailable) : Outcome.Up AliveInv (s.buffersRound o k) := by
  obtain ⟨i, hi⟩ := hinv.waits k hk
  have hcall : AliveInv (s.call .getUserData k) := h.same rfl rfl rfl rfl rfl rfl
  have hsatelite : ((s.call .getUserData k).satelite i).socket = some k := hi
  simp only [ServiceState.buffersRound, ServiceState.getUserData_bind, hinv.bound i k hi, hsatelite]
  have hspace : AliveInv (if ((s.call .getUserData k).sockets k).type = .dgram then
      (s.call .getUserData k).call .streamWspace k else s.call .getUserData k) := by
    split
    · exact hcall.same rfl rfl rfl rfl rfl rfl
    · exact hcall
  generalize (if ((s.call .getUserData k).sockets k).type = .dgram then
      (s.call .getUserData k).call .streamWspace k else s.call .getUserData k) = u at *
  split
  · exact hspace.remove .buffersAvailable k
  · exact hspace.setPc rfl

theorem AliveInv.closingRound (h : AliveInv s) (k : ℕ) :
    Outcome.Up AliveInv (do
      let s ← s.userOnSocketFatal k
      return ((s.remove .closed k).hold k (-1)).kernelClose k) := by
  unfold ServiceState.userOnSocketFatal
  refine Outcome.Up.bind (P := AliveInv) ?_ fun t ht =>
    ((ht.remove .closed k).hold k (-1)).kernelClose k
  exact (h.userFlushRxTx k).bind fun t ht => ht.1.same rfl rfl rfl rfl rfl rfl

theorem AliveInv.acceptingRound (h : AliveInv s) (hinv : ServiceInv s) {k : ℕ} (hlive : s.Live k)
    (waiting : ℕ) :
    Outcome.Up AliveInv (do
      let s ← ServiceState.userOnAccept k waiting s
      return (s.remove .accept k).hold k (-1)) := by
  have hrounds := userOnAccept_up (s := s) (k := k)
    (P := fun t => (ServiceInv t ∧ t.Live k) ∧ AliveInv t) ⟨⟨hinv, hlive⟩, h⟩
    (fun t ht hlisten => ?_) waiting
  · exact hrounds.bind fun t ht => (ht.2.remove .accept k).hold k (-1)
  · obtain ⟨⟨htinv, htlive⟩, htalive⟩ := ht
    obtain ⟨-, i, hi⟩ := htalive.listening k hlisten
    have huser : (t.sockets k).userData ≠ none := by
      rw [htinv.bound i k hi]
      nofun
    exact (htalive.acceptRound huser).and (htinv.acceptRound htlive)

/-- A round of the read loop: the socket leaves the list and is still counted. -/
theorem AliveInv.readRound (h : AliveInv s) {k : ℕ} (hk : k ∈ s.queue .read)
    (idx limit available : ℕ) :
    Outcome.Up AliveInv (do
      let s ← (s.remove .read k).userDataAvailableCbk (some k) available
      return { s with pc := .rxDone k idx limit }) := by
  have hquiet : ∀ j ∈ some k, ((s.remove .read k).sockets j).skState ≠ .listen := by
    rintro j hj hl
    obtain rfl := Option.some.inj hj
    exact h.quiet k (.inl hk) ((skState_setPresent s .read k false k).symm.trans hl)
  refine (up_userDataAvailableCbk hquiet available).bind fun t ht => ?_
  obtain ⟨calls, rings, rfl, -⟩ := ht
  refine (h.remove .read k).step (fun _ hk => ⟨hk, rfl⟩) (fun _ _ hk _ => hk)
    (fun _ hk => .inl hk) rfl ?_
  show ((Function.update s.queue .read ((s.queue .read).erase k)) .read).length + 1 ≤
    s.readSocketsQueueLen
  rw [Function.update_self, List.length_erase_of_mem hk]
  have hpos := List.length_pos_of_mem hk
  have hcounted := h.counted
  omega

/-- One step of the main loop. -/
theorem AliveInv.serviceStep (h : AliveInv s) (hinv : ServiceInv s) (o : Answers)
    (hok : aliveOk s (.service o)) : Outcome.Up AliveInv (s.serviceStep o) := by
  unfold ServiceState.serviceStep
  have hafter : ∀ t, AliveInv t → AliveInv (t.afterTx o) := by
    intro t ht
    refine ht.setPc ?_
    split <;> rfl
  split
  next hat =>
      refine (h.processCommands hinv o (hok.2 hat)).bind fun t ht => ?_
      show AliveInv (if _ then _ else _)
      split
      · exact ht.setPc rfl
      · exact hafter t ht
  next idx limit _ =>
      split
      · exact hafter s h
      next k rest hqueue =>
          split
          · have hk : k ∈ s.queue .write := by
              rw [hqueue]
              exact List.mem_cons_self
            have hquiet : ∀ j ∈ some k, ((s.remove .write k).sockets j).skState ≠ .listen := by
              rintro j hj hl
              obtain rfl := Option.some.inj hj
              exact h.quiet k (.inr hk) ((skState_setPresent s .write k false k).symm.trans hl)
            refine (up_userOnTransmissionOpportunity hquiet o.sent).bind fun t ht => ?_
            exact ((h.remove .write k).onlyReceived ht).setPc rfl
          · exact hafter s h
  next k idx limit _ =>
      have hput : AliveInv ((s.hold k (-1)).count .write (· - 1)) :=
        (h.hold k (-1)).same rfl rfl rfl rfl rfl rfl
      exact hput.setPc rfl
  next =>
      split
      · exact h.setPc rfl
      next k rest hqueue => exact h.closingRound k
  next =>
      split
      · exact h.setPc rfl
      next k rest hqueue =>
          exact h.acceptingRound hinv
            (hinv.toSocketInv.live (q := .accept) (by rw [hqueue]; exact List.mem_cons_self))
            o.waiting
  next idx limit _ =>
      split
      · exact h.setPc rfl
      next k rest hqueue =>
          split
          · exact h.readRound (by rw [hqueue]; exact List.mem_cons_self) idx limit o.available
          · exact h.setPc rfl
  next k idx limit hat =>
      refine (h.hold k (-1)).step (fun _ hk => ⟨hk, rfl⟩) (fun _ _ hk _ => hk)
        (fun _ hk => .inl hk) rfl ?_
      show (s.queue .read).length + 0 ≤ s.readSocketsQueueLen - 1
      have hcounted := h.counted
      rw [hat] at hcounted
      simp only [ServicePc.counting] at hcounted
      omega
  next =>
      split
      · exact h.setPc rfl
      next k rest hqueue =>
          split
          · exact h.buffersRound hinv o (by rw [hqueue]; exact List.mem_cons_self)
          · exact h.setPc rfl

theorem AliveInv.appGlueSockReadable (h : AliveInv s) (hinv : ServiceInv s) (k : ℕ) :
    Outcome.Up AliveInv (s.appGlueSockReadable k) := by
  unfold ServiceState.appGlueSockReadable
  split
  · exact h
  · split
    · exact h
    next hstate =>
        split
        next hpresent =>
            split
            next hzero =>
                have hpos := List.length_pos_of_mem ((hinv.flags .read k).mpr hpresent)
                have hcounted := h.counted
                omega
            next => exact h
        next =>
            have hquiet : ((s.hold k 1).sockets k).skState ≠ .listen := by
              intro hlisten
              have hlisten' : (s.sockets k).skState = .listen := by
                simpa [ServiceState.hold] using hlisten
              refine hstate ⟨?_, (h.listening k hlisten').1⟩
              rw [hlisten']
              decide
            exact (h.hold k 1).enterRead hquiet

/-- An event of the stack. -/
theorem AliveInv.stackEvent (h : AliveInv s) (hinv : ServiceInv s) {e : StackEvent} {r : Outcome}
    (hr : s.stackEvent e = some r) : r.Up AliveInv := by
  cases e with
  | readable k =>
      simp only [ServiceState.stackEvent, Option.ite_none_right_eq_some, Option.some.injEq] at hr
      obtain ⟨-, rfl⟩ := hr
      exact h.appGlueSockReadable hinv k
  | writeSpace k writeable =>
      simp only [ServiceState.stackEvent, Option.ite_none_right_eq_some, Option.some.injEq] at hr
      obtain ⟨-, rfl⟩ := hr
      exact h.appGlueSockWriteSpace k writeable
  | errorReport k =>
      simp only [ServiceState.stackEvent, Option.ite_none_right_eq_some, Option.some.injEq] at hr
      obtain ⟨-, rfl⟩ := hr
      show AliveInv (s.appGlueSockErrorReport k)
      unfold ServiceState.appGlueSockErrorReport
      split
      · exact h
      · exact (h.hold k 1).insertTail (by decide) (by simp)
  | newConnection k =>
      simp only [ServiceState.stackEvent, Option.ite_none_right_eq_some, Option.some.injEq] at hr
      obtain ⟨-, rfl⟩ := hr
      show AliveInv (s.appGlueSockWakeup k)
      unfold ServiceState.appGlueSockWakeup
      split
      · exact h
      · exact (h.hold k 1).insertTail (by decide) (by simp)
  | stateChange k st =>
      simp only [ServiceState.stackEvent, Option.ite_none_right_eq_some, Option.some.injEq] at hr
      obtain ⟨-, rfl⟩ := hr
      exact h.stateChange k st

/-- A client changes nothing that matters to the service being up. -/
theorem AliveInv.clientStep (h : AliveInv s) {a : ServiceStep} {t : ServiceState}
    (hok : aliveOk s a) (ht : s.clientStep a = some t) : AliveInv t := by
  have hcalled : ∀ u a cmd, AliveInv u → AliveInv (u.calledWith a cmd) := by
    intro u a cmd hu
    unfold ServiceState.calledWith
    split
    · exact hu.same rfl rfl rfl rfl rfl rfl
    · exact hu
  cases ServiceState.clientStep_move ht with
  | calledOnly _ _ _ => exact hcalled s _ _ h
  | @getCommand a buf cmd pool _ _ _ =>
      have hpool : AliveInv { s with freeCommandPool := pool } :=
        h.same rfl rfl rfl rfl rfl rfl
      exact (hcalled _ a cmd hpool).same rfl rfl rfl rfl rfl rfl
  | mbufTaken hring => exact absurd rfl (hok .mbuf (by rw [hring]; rfl))
  | post _ =>
      unfold ServiceState.post
      dsimp only
      split
      · unfold ServiceState.notPosted
        split
        · exact h.same rfl rfl rfl rfl rfl rfl
        · exact h.same rfl rfl rfl rfl rfl rfl
      · unfold ServiceState.posted
        dsimp only
        split
        · exact h.same rfl rfl rfl rfl rfl rfl
        · exact h.same rfl rfl rfl rfl rfl rfl
  | takeSlot _ _ => exact h.same rfl rfl rfl rfl rfl rfl
  | lostSlot _ _ => exact h.same rfl rfl rfl rfl rfl rfl
  | openCommand _ _ => exact h.same rfl rfl rfl rfl rfl rfl
  | acceptTake _ _ => exact h.same rfl rfl rfl rfl rfl rfl
  | decline _ => exact h.same rfl rfl rfl rfl rfl rfl
  | acceptSlot _ _ => exact h.same rfl rfl rfl rfl rfl rfl
  | dequeueRx _ => exact h.same rfl rfl rfl rfl rfl rfl

end Steps

theorem aliveInv_settle {r : Outcome} (h : r.Up AliveInv) : AliveInv (ServiceState.settle r) := by
  cases r with
  | ok s => exact h
  | error e => exact h.elim

/-- **Step lemma.**  A guarded step keeps the service up. -/
theorem aliveInv_step {s t : ServiceState} {a : ServiceStep} (hinv : ServiceInv s)
    (h : AliveInv s) (hok : aliveOk s a) (ht : serviceMachine.step s a = some t) : AliveInv t := by
  simp only [serviceMachine] at ht
  split at ht
  next => cases ht
  next =>
      split at ht
      next e =>
          obtain ⟨r, hr, rfl⟩ := Option.map_eq_some_iff.mp ht
          exact aliveInv_settle (h.stackEvent hinv hr)
      next o =>
          obtain rfl := Option.some.inj ht
          exact aliveInv_settle (h.serviceStep hinv o hok)
      next => exact h.clientStep hok ht

theorem aliveInv_init : AliveInv serviceMachine.init where
  listening _ hk := nomatch hk
  quiet _ hk := hk.elim (nomatch ·) (nomatch ·)
  counted := le_rfl
  up := rfl

/-- **The service stays up.**  In every run whose steps meet the guard, for any clients,
commands and events of the stack, the service does not exit, loop or dereference NULL. -/
theorem service_stays_up {s : ServiceState}
    (hreach : serviceMachine.ReachableWhere aliveOk s) : s.crash = none := by
  have hinv : ServiceInv s ∧ AliveInv s := by
    refine @Machine.invariant_of_step _ _ serviceMachine aliveOk
      (fun s => ServiceInv s ∧ AliveInv s) ⟨serviceInv_init, aliveInv_init⟩ ?_ s hreach
    intro s a t h hok hstep
    exact ⟨serviceInv_step h.1 (releaseOk_of_aliveOk hok) hstep,
      aliveInv_step h.1 h.2 hok hstep⟩
  exact hinv.2.up

/-- A guard that can be evaluated, in place of `aliveOk`. -/
def calmOk (s : ServiceState) : ServiceStep → Prop
  | .service o => quietOk s (.service o) ∧
      (s.pc = .commands → ∀ c ∈ s.commandRing.items.head?, commandOk s c.cmd)
  | .acceptTake _ i => ∀ e ∈ (s.rxRing i).items.head?, e ≠ .mbuf
  | _ => True

instance (s : ServiceState) : ∀ a, Decidable (calmOk s a)
  | .service o => inferInstanceAs (Decidable (quietOk s (.service o) ∧
      (s.pc = .commands → ∀ c ∈ s.commandRing.items.head?, commandOk s c.cmd)))
  | .acceptTake _ i => inferInstanceAs (Decidable (∀ e ∈ (s.rxRing i).items.head?, e ≠ .mbuf))
  | .stack _ | .takeSlot _ _ _ | .openCommand _ | .getCommand _ _ | .acceptSlot _ | .post _
  | .dequeueRx _ => .isTrue trivial

theorem aliveOk_of_calmOk {s : ServiceState} {a : ServiceStep} (h : calmOk s a) : aliveOk s a := by
  cases a with
  | service o => exact ⟨releaseOk_of_quietOk h.1, h.2⟩
  | acceptTake a i => exact h
  | _ => trivial

/-- A client listens and accepts a connection, on which data arrives. -/
def acceptRun : List ServiceStep :=
  [.takeSlot 0 .stream none, .openCommand 0, .post 0,
    .service {}, .service {}, .service {}, .service {}, .service {}, .service {},
    .getCommand 0 (.listen 0), .post 0, .service {}, .stack (.newConnection 0), .service {},
    .service {}, .service { waiting := 1 }, .service {}, .service {}, .service {},
    .acceptTake 0 0, .acceptSlot 0, .post 0, .stack (.readable 1),
    .service {}, .service {}, .service {}, .service {}, .service { available := 1 }, .service {}]

theorem service_stays_up_accept :
    ∃ s, serviceMachine.ReachableWhere aliveOk s ∧
      (KernelCall.recvmsg, 1) ∈ s.calls ∧ s.crash = none := by
  have hrun : ((serviceMachine.restrict calmOk).run acceptRun).map
      (fun s => decide ((KernelCall.recvmsg, 1) ∈ s.calls)) = some true := by decide +kernel
  obtain ⟨s, hs, hcalls⟩ := Option.map_eq_some_iff.mp hrun
  have hreach := (serviceMachine.reachableWhere_of_run hs).mono fun _ _ => aliveOk_of_calmOk
  exact ⟨s, hreach, decide_eq_true_iff.mp hcalls, service_stays_up hreach⟩

/-- A client that opened nothing calls `ipaugenblick_listen_socket(5)`. -/
theorem listen_without_socket_brings_service_down :
    ∃ s, serviceMachine.run [.getCommand 0 (.listen 5), .post 0, .service {}] = some s ∧
      s.crash = some .nullSocket := by
  have hrun : (serviceMachine.run [.getCommand 0 (.listen 5), .post 0, .service {}]).map
      (fun s => s.crash) = some (some .nullSocket) := by decide +kernel
  exact Option.map_eq_some_iff.mp hrun

end IpAugenblick
