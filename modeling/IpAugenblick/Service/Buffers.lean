/-
# Command buffers are conserved

A command buffer is in the free pool, in the command ring, in a receive ring with an
accepted connection, or in the hands of a client or of the service.  Two places lose
buffers: a flush releases every element of a receive ring as an mbuf, and
`ipaugenblick_dequeue_rx_buf` forgets the buffer of an RX_KICK that finds the command ring
full.  In the runs that keep clear of both every buffer is in exactly one place.
-/

import IpAugenblick.Service.Hands

namespace IpAugenblick

open Lib

def RxEntry.buf : RxEntry → Option ℕ
  | .mbuf => none
  | .accepted b _ => some b

def ClientPc.buf : ClientPc → Option ℕ
  | .accepting b _ => some b
  | .issuing c => some c.buf
  | _ => none

inductive BufHolder
  | pool
  | command
  | ring (i : ℕ)
  | client (a : ℕ)
  | service
  deriving DecidableEq

/-- The command buffers with their holders; `hand` is what the service has in hand. -/
def bufsHeld (s : ServiceState) (hand : Option ℕ) : BufHolder → List ℕ
  | .pool => s.freeCommandPool
  | .command => s.commandRing.items.map CmdBuf.buf
  | .ring i => (s.rxRing i).items.filterMap RxEntry.buf
  | .client a => (s.clients a).pc.buf.toList
  | .service => hand.toList

/-- Every command buffer is in exactly one place. -/
def BufInv (s : ServiceState) (hand : Option ℕ) : Prop :=
  Lib.Conserved (bufsHeld s hand) (· < commandPoolSize)

section Moves

variable {s t : ServiceState} {hand : Option ℕ} {b : ℕ}

/-- The buffers of a ring are those of its ACCEPTED commands. -/
theorem filterMap_buf_filter (entries : List RxEntry) :
    (entries.filter RxEntry.isAccepted).filterMap RxEntry.buf = entries.filterMap RxEntry.buf := by
  induction entries with
  | nil => rfl
  | cons e entries ih =>
      cases e with
      | mbuf => exact ih
      | accepted b k => exact congrArg (b :: ·) ih

theorem BufInv.congr (h : BufInv s hand) (hsame : SameBufs s t) : BufInv t hand := by
  have heq : bufsHeld t hand = bufsHeld s hand := by
    funext holder
    cases holder with
    | pool => exact hsame.pool
    | command => simp only [bufsHeld, hsame.commandRing]
    | ring i =>
        simp only [bufsHeld]
        rw [← filterMap_buf_filter, hsame.waiting, filterMap_buf_filter]
    | client a => simp only [bufsHeld, hsame.clients]
    | service => rfl
  unfold BufInv
  rw [heq]
  exact h

/-- The service takes a command. -/
theorem BufInv.dequeueCommand (h : BufInv s none) {c : CmdBuf}
    {ring : Ring CmdBuf commandRingCapacity} (hitems : s.commandRing.items = c :: ring.items) :
    BufInv { s with commandRing := ring } (some c.buf) := by
  refine Lib.Conserved.hand h (i := .command) (j := .service) (a := c.buf) (by decide) ?_ ?_
    fun holder hcommand hservice => ?_
  · simp only [bufsHeld, hitems, List.map_cons, List.Perm.refl]
  · exact List.Perm.refl _
  · cases holder <;> first | rfl | contradiction

/-- The service takes a free buffer. -/
theorem BufInv.getFree (h : BufInv s none) {pool : List ℕ} (hpool : s.freeCommandPool = b :: pool) :
    BufInv { s with freeCommandPool := pool } (some b) := by
  refine Lib.Conserved.hand h (i := .pool) (j := .service) (a := b) (by decide) ?_ ?_
    fun holder hfree hservice => ?_
  · simp only [bufsHeld, hpool, List.Perm.refl]
  · exact List.Perm.refl _
  · cases holder <;> first | rfl | contradiction

/-- The service frees the buffer in its hand. -/
theorem BufInv.freeCommandBuf (h : BufInv s (some b)) : BufInv (s.freeCommandBuf b) none := by
  refine Lib.Conserved.hand h (i := .service) (j := .pool) (a := b) (by decide) ?_ ?_
    fun holder hservice hfree => ?_
  · exact List.Perm.refl _
  · exact List.Perm.refl _
  · cases holder <;> first | rfl | contradiction

/-- The service puts an accepted connection into a ring, or frees the buffer. -/
theorem BufInv.ipaugenblickPostAccepted (h : BufInv s (some b)) (newsock i : ℕ) :
    BufInv (s.ipaugenblickPostAccepted b newsock i) none := by
  unfold ServiceState.ipaugenblickPostAccepted
  split
  next => exact h.freeCommandBuf
  next code ring hcode heq =>
      have hitems := Ring.items_of_queued hcode heq
      refine Lib.Conserved.hand h (i := .service) (j := .ring i) (a := b) (nofun) ?_ ?_
        fun holder hservice hring => ?_
      · exact List.Perm.refl _
      · simp only [bufsHeld, ServiceState.setRxRing, Function.update_self, hitems,
          List.filterMap_append]
        exact List.perm_append_singleton _ _
      · cases holder with
        | ring j =>
            have hj : j ≠ i := fun hj => hring (by rw [hj])
            simp only [bufsHeld, ServiceState.setRxRing, Function.update_of_ne hj]
        | service => exact absurd rfl hservice
        | _ => rfl

/-- A client takes a free buffer. -/
theorem BufInv.clientGet (h : BufInv s none) {pool : List ℕ}
    (hpool : s.freeCommandPool = b :: pool) {a : ℕ} {c : Client}
    (hempty : (s.clients a).pc.buf = none) (hc : c.pc.buf = some b) :
    BufInv (ServiceState.setClient { s with freeCommandPool := pool } a c) none := by
  refine Lib.Conserved.hand h (i := .pool) (j := .client a) (a := b) (nofun) ?_ ?_
    fun holder hfree hclient => ?_
  · simp only [bufsHeld, hpool, ServiceState.setClient, List.Perm.refl]
  · simp [bufsHeld, clients_setClient, hempty, hc]
  · cases holder with
    | client a' =>
        have ha : a' ≠ a := fun ha => hclient (by rw [ha])
        simp [bufsHeld, clients_setClient, ha]
    | pool => exact absurd rfl hfree
    | _ => rfl

/-- A client moves on with the same buffer in hand, or without one. -/
theorem BufInv.setClient (h : BufInv s hand) {a : ℕ} {c : Client}
    (hc : c.pc.buf = (s.clients a).pc.buf) : BufInv (s.setClient a c) hand := by
  refine Lib.Conserved.same h fun holder => ?_
  cases holder with
  | client a' =>
      by_cases ha : a' = a
      · subst ha
        simp [bufsHeld, clients_setClient, hc]
      · simp [bufsHeld, clients_setClient, ha]
  | _ => exact List.Perm.refl _

/-- A client takes an accepted connection from a ring. -/
theorem BufInv.acceptTake (h : BufInv s none) {i a k : ℕ} {ring : Ring RxEntry dataRingCapacity}
    (hitems : (s.rxRing i).items = .accepted b k :: ring.items)
    (hidle : (s.clients a).pc = .idle) :
    BufInv ((s.setRxRing i ring).setClientPc a (.accepting b k)) none := by
  refine Lib.Conserved.hand h (i := .ring i) (j := .client a) (a := b) (nofun) ?_ ?_
    fun holder hring hclient => ?_
  · simp [bufsHeld, ServiceState.setClientPc, ServiceState.setClient, ServiceState.setRxRing,
      hitems, RxEntry.buf]
  · simp [bufsHeld, ServiceState.setClientPc, clients_setClient, hidle, ClientPc.buf]
  · cases holder with
    | client a' =>
        have ha : a' ≠ a := fun ha => hclient (by rw [ha])
        simp [bufsHeld, ServiceState.setClientPc, clients_setClient, ha, ServiceState.setRxRing]
    | ring j =>
        have hj : j ≠ i := fun hj => hring (by rw [hj])
        simp [bufsHeld, ServiceState.setClientPc, ServiceState.setClient, ServiceState.setRxRing, hj]
    | _ => rfl

/-- A client queues its command. -/
theorem BufInv.clientPost (h : BufInv s none) {a : ℕ} {c : CmdBuf}
    (hpc : (s.clients a).pc = .issuing c) {ring : Ring CmdBuf commandRingCapacity}
    (hitems : ring.items = s.commandRing.items ++ [c]) :
    BufInv { s.setClientPc a .idle with commandRing := ring } none := by
  refine Lib.Conserved.hand h (i := .client a) (j := .command) (a := c.buf) (nofun) ?_ ?_
    fun holder hclient hcommand => ?_
  · simp [bufsHeld, ServiceState.setClientPc, clients_setClient, hpc, ClientPc.buf]
  · simp only [bufsHeld, hitems, List.map_append]
    exact List.perm_append_singleton _ _
  · cases holder with
    | client a' =>
        have ha : a' ≠ a := fun ha => hclient (by rw [ha])
        simp [bufsHeld, ServiceState.setClientPc, clients_setClient, ha]
    | command => exact absurd rfl hcommand
    | _ => rfl

/-- A client frees the buffer of a command that could not be queued. -/
theorem BufInv.clientFree (h : BufInv s none) {a : ℕ} {c : CmdBuf}
    (hpc : (s.clients a).pc = .issuing c) (lostSlots : List ℕ) :
    BufInv { (s.setClientPc a .idle).freeCommandBuf c.buf with lostSlots } none := by
  refine Lib.Conserved.hand h (i := .client a) (j := .pool) (a := c.buf) (nofun) ?_ ?_
    fun holder hclient hfree => ?_
  · simp [bufsHeld, ServiceState.freeCommandBuf, ServiceState.setClientPc, clients_setClient, hpc,
      ClientPc.buf]
  · exact List.Perm.refl _
  · cases holder with
    | client a' =>
        have ha : a' ≠ a := fun ha => hclient (by rw [ha])
        simp [bufsHeld, ServiceState.freeCommandBuf, ServiceState.setClientPc, clients_setClient, ha]
    | pool => exact absurd rfl hfree
    | _ => rfl

end Moves

section Steps

variable {s t : ServiceState}

/-- `process_commands` passes no buffer on while it works on a command. -/
theorem sameBufs_processCommand (o : Answers) {cmd : Command}
    (hclose : ∀ i, cmd = .close i → ∀ k ∈ (s.satelite i).socket, s.FlushesChains k)
    (hdecline : ∀ k, cmd = .decline k → s.FlushesChains k) :
    Outcome.Keeps (SameBufs s) (s.processCommand o cmd) := by
  have hsatelite : ∀ {t : ServiceState}, SameBufs s t → ∀ i d, SameBufs s (t.setSatelite i d) :=
    fun ht i d => ⟨ht.commandRing, ht.clients, ht.pool, ht.waiting⟩
  have hbufs : ∀ {t : ServiceState} {r : Outcome}, SameBufs s t → r.Keeps (SameHands t) →
      r.Keeps (SameBufs s) := fun ht hr => hr.mono fun _ hu => ht.trans hu.toSameBufs
  cases cmd with
  | openSocket i type parent =>
      unfold ServiceState.processCommand
      dsimp only
      split
      · have hnew := (sameHands_appGlueCreateSocket s type o.writeable).toSameBufs
        have hdata := hnew.trans (sameHands.setUserData _ s.next (some i)).toSameBufs
        exact (hsatelite hdata i _).trans (sameHands.call _ .streamWspace s.next).toSameBufs
      · exact .refl s
  | listen i => exact hbufs (.refl s) (sameHands_appGlueV4Listen s _ o.listens)
  | close i =>
      simp only [ServiceState.processCommand]
      cases hk : (s.satelite i).socket with
      | none => exact .refl s
      | some k =>
          refine (sameHands_userFlushRxTx (hclose i rfl k hk)).bind (fun _ ht => ht.toSameBufs)
            fun t ht => ?_
          have hclosed := ht.toSameBufs.trans (sameHands.appGlueCloseSocket t k o.waiting).toSameBufs
          exact ⟨hclosed.commandRing, hclosed.clients, hclosed.pool, hclosed.waiting⟩
  | setSocketRing i k =>
      unfold ServiceState.processCommand
      have hdata := (sameHands.setUserData s k (some i)).toSameBufs
      have hcall := (hsatelite hdata i
        { s.satelite i with socket := some k, ringsetIdx := some i }).trans
          (sameHands.call _ .streamWspace k).toSameBufs
      exact hbufs hcall (sameHands.userDataAvailableCbk _ _ o.available)
  | setSocketSelect i select => exact hbufs (.refl s) (sameHands_processSelect o i select)
  | decline k =>
      refine (sameHands_userFlushRxTx (hdecline k rfl)).bind (fun _ ht => ht.toSameBufs)
        fun t ht => ?_
      exact ht.toSameBufs.trans (sameHands.appGlueCloseSocket t k o.waiting).toSameBufs
  | _ => exact hbufs (.refl s) (sameHands.processLocal o rfl)

/-- Every buffer is in one place, where the service has one in hand only when it is down. -/
def BufsKept (s : ServiceState) : Prop :=
  ∃ hand, (s.crash = none → hand = none) ∧ BufInv s hand

/-- What a step of the service leaves: nothing in hand, unless it comes down. -/
def Outcome.Conserves : Outcome → Prop
  | .ok s => BufInv s none
  | .error (_, s) => ∃ hand, BufInv s hand

theorem Outcome.Conserves.settle {r : Outcome} (h : r.Conserves) :
    BufsKept (ServiceState.settle r) := by
  cases r with
  | ok s => exact ⟨none, fun _ => rfl, h⟩
  | error e =>
      obtain ⟨hand, hinv⟩ := h
      refine ⟨hand, (nomatch ·), ?_⟩
      exact hinv.congr ⟨rfl, rfl, rfl, fun _ => rfl⟩

theorem BufInv.processCommands (h : BufInv s none) (o : Answers)
    (hchains : ∀ c ∈ s.commandRing.items.head?,
      (∀ i, c.cmd = .close i → ∀ k ∈ (s.satelite i).socket, s.FlushesChains k) ∧
        ∀ k, c.cmd = .decline k → s.FlushesChains k) : (s.processCommands o).Conserves := by
  unfold ServiceState.processCommands
  cases hring : s.commandRing.dequeue with
  | none => exact h
  | some taken =>
      obtain ⟨c, ring⟩ := taken
      have hitems := (Ring.dequeue_eq_some_iff _ _ _).mp hring
      have hguard := hchains c (by rw [hitems]; rfl)
      have htaken := h.dequeueCommand hitems
      have hsame := sameBufs_processCommand (s := { s with commandRing := ring }) o hguard.1 hguard.2
      dsimp only
      cases hr : ServiceState.processCommand { s with commandRing := ring } o c.cmd with
      | ok t =>
          rw [hr] at hsame
          exact (htaken.congr hsame).freeCommandBuf
      | error e =>
          rw [hr] at hsame
          exact ⟨_, htaken.congr hsame⟩

/-- One round of `user_on_accept`. -/
theorem BufInv.acceptRound (h : BufInv s none) {k : ℕ} : (s.acceptRound k).Conserves := by
  have hnew := h.congr (sameHands_kernelAccept s k).toSameBufs
  rw [acceptRound_eq]
  cases hpool : s.freeCommandPool with
  | nil => exact hnew
  | cons b pool =>
      have hpool' : (s.kernelAccept k).2.freeCommandPool = b :: pool := hpool
      have htaken := hnew.getFree hpool'
      have hready := (htaken.congr (sameHands.call _ .getUserData k).toSameBufs).congr
        (sameHands.setUserData _ s.next none).toSameBufs
      dsimp only
      cases (s.sockets k).userData with
      | none => exact ⟨_, hready⟩
      | some i => exact hready.ipaugenblickPostAccepted s.next i

theorem BufInv.userOnAccept (h : BufInv s none) (k waiting : ℕ) :
    (ServiceState.userOnAccept k waiting s).Conserves := by
  induction waiting generalizing s with
  | zero => exact h
  | succ waiting ih =>
      unfold ServiceState.userOnAccept
      split
      · exact h
      · have hround := h.acceptRound (k := k)
        cases hr : s.acceptRound k with
        | ok t =>
            rw [hr] at hround
            exact ih hround
        | error e =>
            rw [hr] at hround
            exact hround

/-- The guard of the runs that lose no command buffer: what the service flushes, and what a
client takes for a chain, is a chain, and an RX_KICK finds room in the command ring. -/
def bufferOk (s : ServiceState) : ServiceStep → Prop
  | .service _ => s.StepFlushesChains
  | .dequeueRx i => ∀ e ∈ (s.rxRing i).items.head?, e.isAccepted = false
  | .post a => ∀ b i, (s.clients a).pc = .issuing ⟨b, .rxKick i⟩ → 0 < s.commandRing.freeCount
  | _ => True

/-- A step of the main loop. -/
theorem BufInv.serviceStep (h : BufInv s none) (o : Answers) (hok : bufferOk s (.service o)) :
    (s.serviceStep o).Conserves := by
  by_cases hcommands : s.pc = .commands
  · have hdone := h.processCommands o (hok.1 hcommands)
    unfold ServiceState.serviceStep
    rw [hcommands]
    dsimp only
    cases hr : s.processCommands o with
    | ok t =>
        rw [hr] at hdone
        show BufInv (if _ then _ else _) none
        split
        · exact hdone.congr ⟨rfl, rfl, rfl, fun _ => rfl⟩
        · exact hdone.congr ⟨rfl, rfl, rfl, fun _ => rfl⟩
    | error e =>
        rw [hr] at hdone
        exact hdone
  · by_cases haccepting : s.pc = .accepting
    · unfold ServiceState.serviceStep
      rw [haccepting]
      dsimp only
      split
      · exact h.congr ⟨rfl, rfl, rfl, fun _ => rfl⟩
      next k rest hqueue =>
          have hdone := h.userOnAccept k o.waiting
          cases hr : ServiceState.userOnAccept k o.waiting s with
          | ok t =>
              rw [hr] at hdone
              exact hdone.congr
                (sameHands.trans (sameHands.remove t .accept k) (sameHands.hold _ k _)).toSameBufs
          | error e =>
              rw [hr] at hdone
              exact hdone
    · have hsame := sameHands.serviceStep o hcommands haccepting
        fun hpc k hk => sameHands_userFlushRxTx (hok.2 hpc k hk)
      cases hr : s.serviceStep o with
      | ok t =>
          rw [hr] at hsame
          exact h.congr hsame.toSameBufs
      | error e =>
          rw [hr] at hsame
          exact ⟨_, h.congr hsame.toSameBufs⟩

/-- The end of a call that queues a command. -/
theorem BufInv.post (h : BufInv s none) {a : ℕ} {c : CmdBuf} (hpc : (s.clients a).pc = .issuing c)
    (hkick : ∀ i, c.cmd = .rxKick i → 0 < s.commandRing.freeCount) : BufInv (s.post a c) none := by
  unfold ServiceState.post
  dsimp only
  split
  next ring hfull =>
      have hnone : s.commandRing.freeCount = 0 := Ring.freeCount_of_nobufs hfull
      unfold ServiceState.notPosted
      split
      next i hcmd => exact absurd hnone (Nat.ne_of_gt (hkick i hcmd))
      next => exact h.clientFree hpc _
  next code ring hcode hqueued =>
      have hitems : ring.items = s.commandRing.items ++ [c] :=
        Ring.items_of_queued hcode hqueued
      have hposted := h.clientPost hpc hitems
      unfold ServiceState.posted
      dsimp only
      split
      · exact hposted
      · exact hposted.setClient rfl

theorem BufInv.calledWith {a : ℕ} (h : BufInv s none) (cmd : Command) :
    BufInv (s.calledWith a cmd) none := by
  unfold ServiceState.calledWith
  split
  · exact h.setClient rfl
  · exact h

theorem BufInv.getCommand (h : BufInv s none) {a b : ℕ} {pool : List ℕ}
    (hpool : s.freeCommandPool = b :: pool) (hidle : (s.clients a).pc = .idle) (cmd : Command) :
    BufInv ((ServiceState.calledWith { s with freeCommandPool := pool } a cmd).setClientPc a
      (.issuing ⟨b, cmd⟩)) none := by
  have hempty : (s.clients a).pc.buf = none := by
    rw [hidle]
    rfl
  cases cmd with
  | close i =>
      have hgiven : BufInv (s.calledWith a (.close i)) none := h.calledWith _
      have hpool' : (s.calledWith a (.close i)).freeCommandPool = b :: pool := hpool
      refine hgiven.clientGet hpool' ?_ rfl
      simpa [ServiceState.calledWith, clients_setClient] using hempty
  | _ => exact h.clientGet hpool hempty rfl

/-- A step of a client. -/
theorem BufInv.clientStep (h : BufInv s none) {step : ServiceStep} (hok : bufferOk s step)
    (ht : s.clientStep step = some t) : BufInv t none := by
  have hfree : ∀ ring, BufInv { s with freeConnectionsRing := ring } none :=
    fun ring => h.congr ⟨rfl, rfl, rfl, fun _ => rfl⟩
  cases ServiceState.clientStep_move ht with
  | takeSlot hidle _ =>
      refine (hfree _).setClient ?_
      rw [hidle]
      rfl
  | @lostSlot a i type parent hpc hpool =>
      have hidle : BufInv (s.setClientPc a .idle) none := by
        refine h.setClient ?_
        rw [hpc]
        rfl
      exact hidle.congr ⟨rfl, rfl, rfl, fun _ => rfl⟩
  | openCommand hpc hpool =>
      refine h.clientGet hpool ?_ rfl
      rw [hpc]
      rfl
  | calledOnly hplain hidle hpool => exact h.calledWith _
  | getCommand hplain hidle hpool => exact h.getCommand hpool hidle _
  | acceptTake hidle hring => exact h.acceptTake hring hidle
  | mbufTaken hring => exact h.congr ⟨rfl, rfl, rfl, fun _ => rfl⟩
  | decline hpc =>
      refine h.setClient ?_
      rw [hpc]
      rfl
  | acceptSlot hpc _ =>
      refine (hfree _).setClient ?_
      rw [hpc]
      rfl
  | @post a c hpc =>
      obtain ⟨b, cmd⟩ := c
      refine h.post hpc fun i hcmd => ?_
      dsimp only at hcmd
      subst hcmd
      exact hok b i hpc
  | @dequeueRx i entry ring hring =>
      have hchain : entry.isAccepted = false := hok entry (by rw [hring]; rfl)
      refine h.congr ⟨rfl, rfl, rfl, fun j => ?_⟩
      by_cases hj : j = i
      · subst hj
        simp [ServiceState.setRxRing, hring, hchain]
      · simp [ServiceState.setRxRing, hj]

end Steps

theorem bufInv_init : BufInv serviceMachine.init none := by
  have hpool : bufsHeld serviceMachine.init none .pool = List.range commandPoolSize := by
    simp only [bufsHeld, serviceMachine, initialService]
  have hother : ∀ holder, holder ≠ .pool → bufsHeld serviceMachine.init none holder = [] := by
    intro holder hne
    cases holder with
    | pool => exact absurd rfl hne
    | _ => rfl
  refine ⟨?_, fun b => ⟨?_, fun hb => ⟨.pool, ?_⟩⟩⟩
  · have hnone : Exclusive fun _ : BufHolder => ([] : List ℕ) := .of_forall_nil fun _ => rfl
    have hnodup : (List.range commandPoolSize).Nodup := List.nodup_range
    refine hnone.giveAll hnodup ?_ hpool hother
    intro _ _ _
    exact List.not_mem_nil
  · rintro ⟨holder, hb⟩
    by_cases hholder : holder = .pool
    · rw [hholder, hpool] at hb
      exact List.mem_range.mp hb
    · rw [hother holder hholder] at hb
      exact absurd hb List.not_mem_nil
  · rw [hpool]
    exact List.mem_range.mpr hb

/-- **Step lemma.**  A step that flushes chains only and forgets no RX_KICK. -/
theorem bufsKept_step {s t : ServiceState} {a : ServiceStep} (h : BufsKept s)
    (hok : bufferOk s a) (ht : serviceMachine.step s a = some t) : BufsKept t := by
  obtain ⟨hand, hup, hinv⟩ := h
  simp only [serviceMachine] at ht
  split at ht
  next => cases ht
  next hcrash =>
      rw [hup hcrash] at hinv
      split at ht
      next e =>
          obtain ⟨r, hr, rfl⟩ := Option.map_eq_some_iff.mp ht
          have hsame := sameHands.stackEvent hr
          refine Outcome.Conserves.settle ?_
          cases r with
          | ok u => exact hinv.congr hsame.toSameBufs
          | error e => exact ⟨_, hinv.congr hsame.toSameBufs⟩
      next o =>
          obtain rfl := Option.some.inj ht
          exact (hinv.serviceStep o hok).settle
      next => exact ⟨none, fun _ => rfl, hinv.clientStep hok ht⟩

/-- **Run lemma.** -/
theorem bufsKept_of_reachable {s : ServiceState}
    (hreach : serviceMachine.ReachableWhere bufferOk s) : BufsKept s := by
  refine serviceMachine.invariant_of_step ⟨none, fun _ => rfl, bufInv_init⟩ ?_ hreach
  intro s a t h hok hstep
  exact bufsKept_step h hok hstep

/-- **Command buffers are conserved.**  In every run in which what is flushed or taken as a
chain is one, and no RX_KICK finds the command ring full, each of the `COMMAND_POOL_SIZE`
buffers is in exactly one place: the pool, the command ring, a receive ring, the hands of a
client or, once it has come down in the middle of a step, those of the service. -/
theorem command_buffers_conserved {s : ServiceState}
    (hreach : serviceMachine.ReachableWhere bufferOk s) :
    ∃ hand, (s.crash = none → hand = none) ∧
      Lib.Conserved (bufsHeld s hand) (· < commandPoolSize) := by
  exact bufsKept_of_reachable hreach

/-- A command for which `process_commands` flushes a receive ring. -/
def Command.flushes : Command → Bool
  | .close _ => true
  | .decline _ => true
  | _ => false

/-- A guard that can be evaluated, in place of `bufferOk`. -/
def unflushedOk (s : ServiceState) : ServiceStep → Prop
  | .service _ => (s.pc = .commands → ∀ c ∈ s.commandRing.items.head?, c.cmd.flushes = false) ∧
      (s.pc = .closing → s.queue .closed = [])
  | .dequeueRx _ => False
  | .post _ => 0 < s.commandRing.freeCount
  | _ => True

instance (s : ServiceState) : ∀ a, Decidable (unflushedOk s a)
  | .service _ => inferInstanceAs (Decidable
      ((s.pc = .commands → ∀ c ∈ s.commandRing.items.head?, c.cmd.flushes = false) ∧
        (s.pc = .closing → s.queue .closed = [])))
  | .dequeueRx _ => .isFalse id
  | .post _ => inferInstanceAs (Decidable (0 < s.commandRing.freeCount))
  | .stack _ | .takeSlot _ _ _ | .openCommand _ | .getCommand _ _ | .acceptTake _ _
  | .acceptSlot _ => .isTrue trivial

theorem bufferOk_of_unflushedOk {s : ServiceState} {a : ServiceStep} (h : unflushedOk s a) :
    bufferOk s a := by
  cases a with
  | service o =>
      refine ⟨fun hpc c hc => ⟨fun i hi => ?_, fun k hk => ?_⟩, fun hpc k hk => ?_⟩
      · have hflushes := h.1 hpc c hc
        rw [hi] at hflushes
        cases hflushes
      · have hflushes := h.1 hpc c hc
        rw [hk] at hflushes
        cases hflushes
      · rw [h.2 hpc] at hk
        cases hk
  | dequeueRx i => exact h.elim
  | post a => exact fun _ _ _ => h
  | _ => trivial

/-- A client closes its listener while a connection waits to be accepted. -/
def closeWhilePendingRun : List ServiceStep :=
  [.takeSlot 0 .stream none, .openCommand 0, .post 0,
    .service {}, .service {}, .service {}, .service {}, .service {}, .service {},
    .getCommand 0 (.listen 0), .post 0, .service {}, .stack (.newConnection 0), .service {},
    .service {}, .service { waiting := 1 }, .service {}, .service {}, .service {},
    .getCommand 0 (.close 0), .post 0]

/-- So far nothing is flushed: the connection is in the ring of the listener. -/
theorem closeWhilePendingRun_spec : ∃ s, serviceMachine.run closeWhilePendingRun = some s ∧
    serviceMachine.ReachableWhere bufferOk s ∧ s.crash = none ∧
      (s.rxRing 0).items = [.accepted 0 1] := by
  have hrun : ((serviceMachine.restrict unflushedOk).run closeWhilePendingRun).map
      (fun s => (s.crash, (s.rxRing 0).items)) = some (none, [.accepted 0 1]) := by decide +kernel
  obtain ⟨s, hs, hview⟩ := Option.map_eq_some_iff.mp hrun
  have hreach := (serviceMachine.reachableWhere_of_run hs).mono fun _ _ => bufferOk_of_unflushedOk
  rw [Prod.mk.injEq] at hview
  exact ⟨s, serviceMachine.runFrom_of_restrict _ hs, hreach, hview⟩

theorem command_buffers_conserved_pending : ∃ s, serviceMachine.ReachableWhere bufferOk s ∧
    (s.rxRing 0).items = [.accepted 0 1] ∧ ∃ hand, (s.crash = none → hand = none) ∧
      Lib.Conserved (bufsHeld s hand) (· < commandPoolSize) := by
  obtain ⟨s, -, hreach, -, hring⟩ := closeWhilePendingRun_spec
  exact ⟨s, hreach, hring, command_buffers_conserved hreach⟩

/-- A command buffer that is taken for a chain is nowhere afterwards. -/
theorem not_bufsKept_dequeueRx {s : ServiceState} {i b k : ℕ} (h : BufsKept s)
    (hup : s.crash = none) {ring : Ring RxEntry dataRingCapacity}
    (hitems : (s.rxRing i).items = .accepted b k :: ring.items) :
    ¬ BufsKept (s.setRxRing i ring) := by
  rintro ⟨hand', hnone', hafter⟩
  obtain ⟨hand, hnone, hbefore⟩ := h
  rw [hnone hup] at hbefore
  rw [hnone' hup] at hafter
  have hfirst : bufsHeld s none (.ring i) = b :: ring.items.filterMap RxEntry.buf := by
    simp [bufsHeld, hitems, RxEntry.buf]
  have hgone : Exclusive (bufsHeld (s.setRxRing i ring) none) ∧
      ∀ holder, b ∉ bufsHeld (s.setRxRing i ring) none holder := by
    refine hbefore.take hfirst ?_ fun holder hne => ?_
    · simp [bufsHeld, ServiceState.setRxRing, List.Subperm.refl]
    · cases holder with
      | ring j =>
          have hj : j ≠ i := fun hj => hne (by rw [hj])
          simp [bufsHeld, ServiceState.setRxRing, hj, List.Subperm.refl]
      | _ => exact List.Subperm.refl _
  have hvalid := (hbefore.all b).mp ⟨.ring i, by rw [hfirst]; exact List.mem_cons_self⟩
  obtain ⟨holder, hholder⟩ := (hafter.all b).mpr hvalid
  exact hgone.2 holder hholder

/-- The flush of `ipaugenblick_close` releases the ACCEPTED command as an mbuf. -/
theorem listener_close_loses_command_buffer :
    ∃ s, serviceMachine.run (closeWhilePendingRun ++ [.dequeueRx 0]) = some s ∧
      ¬ ∃ hand, (s.crash = none → hand = none) ∧
        Lib.Conserved (bufsHeld s hand) (· < commandPoolSize) := by
  obtain ⟨s, hrun, hreach, hup, hring⟩ := closeWhilePendingRun_spec
  have hkept := bufsKept_of_reachable hreach
  refine ⟨s.setRxRing 0 .empty, ?_, not_bufsKept_dequeueRx hkept hup hring⟩
  have hdequeue : (s.rxRing 0).dequeue = some (.accepted 0 1, .empty) :=
    (Ring.dequeue_eq_some_iff _ _ _).mpr hring
  have hstep : serviceMachine.step s (.dequeueRx 0) = some (s.setRxRing 0 .empty) := by
    simp [serviceMachine, hup, ServiceState.clientStep, hdequeue]
  unfold Machine.run at hrun ⊢
  rw [Machine.runFrom_append, hrun]
  simp [hstep]

end IpAugenblick
