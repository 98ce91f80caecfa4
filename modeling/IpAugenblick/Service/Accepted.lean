/-
# Accepted sockets are neither lost nor duplicated

A socket that `kernel_accept` returned waits in the receive ring of its listener, is on its
way to the service in a SET_SOCKET_RING or DECLINE, is bound to a slot, or is closed.  It is
lost where the function that has it in hand gives up: no command buffer or no room in the
receive ring in `user_on_accept`, no room in the command ring in `ipaugenblick_accept`, and
a flush of a receive ring in which it still waits.
-/

import IpAugenblick.Service.Buffers
import IpAugenblick.Service.Connections

namespace IpAugenblick

open Lib

/-- No socket starts to listen, none is revived, and what was accepted meanwhile is closed. -/
structure Mild (s t : ServiceState) : Prop where
  listen : ∀ k, (t.sockets k).skState = .listen → (s.sockets k).skState = .listen
  released : ∀ k, (s.sockets k).released = true → (t.sockets k).released = true
  accepted : ∀ k ∈ t.accepted, k ∈ s.accepted ∨ (t.sockets k).released = true

section Mild

variable {s t u : ServiceState}

theorem Mild.same (hsockets : t.sockets = s.sockets) (haccepted : t.accepted = s.accepted) :
    Mild s t where
  listen k hk := by rwa [hsockets] at hk
  released k hk := by rwa [hsockets]
  accepted k hk := by
    rw [haccepted] at hk
    exact .inl hk

theorem Mild.refl (s : ServiceState) : Mild s s := .same rfl rfl

theorem Mild.trans (hst : Mild s t) (htu : Mild t u) : Mild s u where
  listen k hk := hst.listen k (htu.listen k hk)
  released k hk := htu.released k (hst.released k hk)
  accepted k hk := by
    rcases htu.accepted k hk with hk | hk
    · exact (hst.accepted k hk).imp id (htu.released k)
    · exact .inr hk

theorem mild_setSocket {k : ℕ} {f : Socket → Socket}
    (hlisten : (f (s.sockets k)).skState = .listen → (s.sockets k).skState = .listen)
    (hreleased : (s.sockets k).released = true → (f (s.sockets k)).released = true) :
    Mild s (s.setSocket k f) where
  listen j hj := by
    by_cases hjk : j = k
    · subst hjk
      rw [ServiceState.setSocket_self] at hj
      exact hlisten hj
    · rwa [ServiceState.setSocket_of_ne s hjk] at hj
  released j hj := by
    by_cases hjk : j = k
    · subst hjk
      rw [ServiceState.setSocket_self]
      exact hreleased hj
    · rwa [ServiceState.setSocket_of_ne s hjk]
  accepted _ hk := .inl hk

theorem mild_kernelClose (s : ServiceState) (k : ℕ) : Mild s (s.kernelClose k) := by
  have hcall : Mild s (s.call .close k) := .same rfl rfl
  refine hcall.trans (mild_setSocket (fun hlisten => ?_) fun _ => rfl)
  dsimp only at hlisten
  split at hlisten
  · cases hlisten
  · exact hlisten

/-- A connection that is accepted only to be closed. -/
theorem mild_kernelAccept_kernelClose (s : ServiceState) (k : ℕ) :
    Mild s ((s.kernelAccept k).2.kernelClose s.next) := by
  have hclosed := closed_kernelClose (s.kernelAccept k).2 s.next
  have hother : ∀ j, j ≠ s.next →
      ((s.kernelAccept k).2.kernelClose s.next).sockets j = s.sockets j := by
    intro j hj
    have hclose : ((s.kernelAccept k).2.kernelClose s.next).sockets j =
        (s.kernelAccept k).2.sockets j := ServiceState.setSocket_of_ne _ hj _
    exact hclose.trans (Function.update_of_ne hj _ _)
  refine ⟨fun j hj => ?_, fun j hj => ?_, fun j hj => ?_⟩
  · by_cases hjn : j = s.next
    · subst hjn
      exact absurd hj hclosed.2
    · rwa [hother j hjn] at hj
  · by_cases hjn : j = s.next
    · subst hjn
      exact hclosed.1
    · rwa [hother j hjn]
  · rcases List.mem_cons.mp hj with rfl | hj
    · exact .inr hclosed.1
    · exact .inl hj

/-- A new socket, whose number was not handed out before. -/
theorem mild_newSocket {sock : Socket} (hborn : (s.sockets s.next).released = false)
    (hlisten : sock.skState ≠ .listen) : Mild s (s.newSocket sock) where
  listen j hj := by
    by_cases hjn : j = s.next
    · subst hjn
      simp only [ServiceState.newSocket, Function.update_self] at hj
      exact absurd hj hlisten
    · simpa only [ServiceState.newSocket, Function.update_of_ne hjn] using hj
  released j hj := by
    by_cases hjn : j = s.next
    · subst hjn
      rw [hborn] at hj
      cases hj
    · simpa only [ServiceState.newSocket, Function.update_of_ne hjn] using hj
  accepted _ hk := .inl hk

/-- The callbacks are mild. -/
theorem mild : CallbackFrame Mild where
  refl := .refl
  trans := .trans
  received := by
    rintro s t ⟨calls, rings, rfl, -⟩
    exact .same rfl rfl
  loop _ _ := .same rfl rfl
  hold _ _ _ := mild_setSocket id id
  insertTail s q k := by
    have hpresent : Mild s (s.setPresent q k true) := mild_setSocket id id
    exact hpresent.trans (.same rfl rfl)
  remove s q k := by
    have hpresent : Mild s (s.setPresent q k false) := mild_setSocket id id
    exact hpresent.trans (.same rfl rfl)
  count s q _ := by cases q <;> exact .same rfl rfl
  setSkState _ _ _ hst := mild_setSocket (fun hlisten => absurd hlisten hst) id
  setUserData _ _ _ := mild_setSocket id id
  kernelClose := mild_kernelClose
  acceptAndClose := mild_kernelAccept_kernelClose

theorem mild_userFlushRxTx (s : ServiceState) (k : ℕ) :
    Outcome.Keeps (Mild s) (s.userFlushRxTx k) := by
  rw [userFlushRxTx_eq]
  refine Mild.same (sockets_flushRing s k) ?_
  cases (s.sockets k).userData <;> rfl

/-- `process_commands` on a command other than LISTEN. -/
theorem mild_processCommand (hborn : (s.sockets s.next).released = false) (o : Answers)
    {cmd : Command} (hlisten : ∀ i, cmd ≠ .listen i) :
    Outcome.Keeps (Mild s) (s.processCommand o cmd) := by
  cases cmd with
  | openSocket i type parent =>
      unfold ServiceState.processCommand
      dsimp only
      split
      · have hunborn : Mild s (s.newSocket { Socket.unborn with type }) :=
          mild_newSocket hborn (by simp [Socket.unborn])
        have hnew := mild.appGlueCreateSocket hunborn o.writeable
        exact (hnew.trans (mild.setUserData _ s.next (some i))).trans (.same rfl rfl)
      · exact .refl s
  | listen i => exact absurd rfl (hlisten i)
  | close i =>
      simp only [ServiceState.processCommand]
      cases (s.satelite i).socket with
      | none => exact .refl s
      | some k =>
          refine (mild_userFlushRxTx s k).bind (fun _ ht => ht) fun t ht => ?_
          exact (ht.trans (mild.appGlueCloseSocket t k o.waiting)).trans (.same rfl rfl)
  | setSocketRing i k =>
      unfold ServiceState.processCommand
      have hbound : Mild s (((s.appGlueSetUserData k (some i)).setSatelite i
          { s.satelite i with socket := some k, ringsetIdx := some i }).call .streamWspace k) :=
        (mild.setUserData s k (some i)).trans (.same rfl rfl)
      exact (mild.userDataAvailableCbk _ _ o.available).mono fun _ ht => hbound.trans ht
  | setSocketSelect i select =>
      have hselect : Mild s (s.setSatelite i { s.satelite i with parentIdx := select }) :=
        .same rfl rfl
      exact (mild.userDataAvailableCbk _ _ o.available).mono fun _ ht => hselect.trans ht
  | decline k =>
      refine (mild_userFlushRxTx s k).bind (fun _ ht => ht) fun t ht => ?_
      exact ht.trans (mild.appGlueCloseSocket t k o.waiting)
  | _ => exact mild.processLocal o rfl

end Mild

/-- Where the accepted sockets are while the service has `hand` in hand, and what their
listeners are. -/
structure Handled (s : ServiceState) (hand : Option ℕ) : Prop where
  placed : ∀ k ∈ s.accepted, (s.sockets k).released = true ∨
    (∃ holder, k ∈ socketsHeld s holder) ∨ hand = some k
  pending : ∀ i, ∀ e ∈ (s.rxRing i).items, e.isAccepted = true → (s.satelite i).socket ≠ none
  listening : ∀ k, (s.sockets k).skState = .listen → ∃ i, (s.satelite i).socket = some k

section Handled

variable {s t : ServiceState} {hand hand' : Option ℕ}

/-- A change that starts no listener: what was held is held or closed, and no slot with
pending connections or a listener is given up. -/
theorem Handled.step (h : Handled s hand) (hmild : Mild s t)
    (hheld : ∀ k, (∃ holder, k ∈ socketsHeld s holder) ∨ hand = some k →
      (t.sockets k).released = true ∨ (∃ holder, k ∈ socketsHeld t holder) ∨ hand' = some k)
    (hrings : ∀ i, ∀ e ∈ (t.rxRing i).items, e.isAccepted = true →
      e ∈ (s.rxRing i).items ∧ ((s.satelite i).socket ≠ none → (t.satelite i).socket ≠ none))
    (hlisten : ∀ i k, (s.satelite i).socket = some k → (t.sockets k).skState = .listen →
      (t.satelite i).socket = some k) : Handled t hand' where
  placed k hk := by
    rcases hmild.accepted k hk with hk | hk
    · rcases h.placed k hk with hk | hk
      · exact .inl (hmild.released k hk)
      · exact hheld k hk
    · exact .inl hk
  pending i e he hacc := by
    obtain ⟨he', hslot⟩ := hrings i e he hacc
    exact hslot (h.pending i e he' hacc)
  listening k hk := by
    obtain ⟨i, hi⟩ := h.listening k (hmild.listen k hk)
    exact ⟨i, hlisten i k hi hk⟩

theorem filterMap_sock_filter (entries : List RxEntry) :
    (entries.filter RxEntry.isAccepted).filterMap RxEntry.sock =
      entries.filterMap RxEntry.sock := by
  induction entries with
  | nil => rfl
  | cons e entries ih =>
      cases e with
      | mbuf => exact ih
      | accepted b k => exact congrArg (k :: ·) ih

theorem SameBufs.ring (h : SameBufs s t) (i : ℕ) :
    (t.rxRing i).items.filterMap RxEntry.sock = (s.rxRing i).items.filterMap RxEntry.sock := by
  rw [← filterMap_sock_filter, h.waiting, filterMap_sock_filter]

theorem SameBufs.mem_ring (h : SameBufs s t) {i : ℕ} {e : RxEntry}
    (he : e ∈ (t.rxRing i).items) (hacc : e.isAccepted = true) : e ∈ (s.rxRing i).items := by
  have hmem := List.mem_filter.mpr ⟨he, hacc⟩
  rw [h.waiting] at hmem
  exact (List.mem_filter.mp hmem).1

theorem socketsHeld_congr (h : SameHands s t) : socketsHeld t = socketsHeld s := by
  funext holder
  cases holder with
  | slot i => simp only [socketsHeld, h.socket]
  | ring i => exact h.toSameBufs.ring i
  | command => simp only [socketsHeld, h.toSameBufs.commandRing]
  | client a => simp only [socketsHeld, h.toSameBufs.clients]

theorem Handled.congr (h : Handled s hand) (hsame : SameHands s t) (hmild : Mild s t) :
    Handled t hand := by
  refine h.step hmild (fun k hk => .inr ?_) (fun i e he hacc => ?_) fun i k hk _ => ?_
  · rw [socketsHeld_congr hsame]
    exact hk
  · refine ⟨hsame.toSameBufs.mem_ring he hacc, fun hslot => ?_⟩
    rw [hsame.socket]
    exact hslot
  · rw [hsame.socket]
    exact hk

/-- The service takes a command: it has in hand what the command carries. -/
theorem Handled.dequeueCommand (h : Handled s none) {c : CmdBuf}
    {ring : Ring CmdBuf commandRingCapacity} (hitems : s.commandRing.items = c :: ring.items) :
    Handled { s with commandRing := ring } c.cmd.descr := by
  refine h.step (.same rfl rfl) ?_ (fun i e he _ => ⟨he, id⟩) fun _ _ hk _ => hk
  rintro k (⟨holder, hk⟩ | hk)
  · by_cases hcommand : holder = .command
    · subst hcommand
      simp only [socketsHeld, hitems, List.mem_filterMap] at hk
      obtain ⟨c', hc', hdescr⟩ := hk
      rcases List.mem_cons.mp hc' with rfl | hc'
      · exact .inr (.inr hdescr)
      · exact .inr (.inl ⟨.command, List.mem_filterMap.mpr ⟨c', hc', hdescr⟩⟩)
    · refine .inr (.inl ⟨holder, ?_⟩)
      cases holder with
      | command => exact absurd rfl hcommand
      | _ => exact hk
  · cases hk

/-- LISTEN. -/
theorem Handled.appGlueV4Listen (h : Handled s hand) (i : ℕ) (listens : Bool) :
    Outcome.Keeps (fun t => Handled t hand) (s.appGlueV4Listen (s.satelite i).socket listens) := by
  unfold ServiceState.appGlueV4Listen
  cases hk : (s.satelite i).socket with
  | none => exact h
  | some k =>
      dsimp only
      split
      · refine ⟨fun j hj => ?_, h.pending, fun j hj => ?_⟩
        · refine (h.placed j hj).imp_left fun hreleased => ?_
          by_cases hjk : j = k
          · subst hjk
            rw [ServiceState.setSocket_self]
            exact hreleased
          · rwa [ServiceState.setSocket_of_ne s hjk]
        · by_cases hjk : j = k
          · subst hjk
            exact ⟨i, hk⟩
          · rw [ServiceState.setSocket_of_ne s hjk] at hj
            exact h.listening j hj
      · exact h

/-- OPEN_SOCKET and SET_SOCKET_RING. -/
theorem Handled.binds (h : Handled s hand) {i : ℕ} (hempty : (s.satelite i).socket = none)
    (hmild : Mild s t) (hbufs : SameBufs s t) (hbinds : Binds s t i hand) : Handled t none := by
  obtain ⟨d, hd, hhand, hslots⟩ := hbinds
  have hself : (t.satelite i).socket = d.socket := by
    rw [hslots.socket]
    simp [ServiceState.setSatelite]
  have hother : ∀ j, j ≠ i → (t.satelite j).socket = (s.satelite j).socket := by
    intro j hj
    rw [hslots.socket]
    simp [ServiceState.setSatelite, hj]
  have hkept : ∀ j k, (s.satelite j).socket = some k → (t.satelite j).socket = some k := by
    intro j k hk
    have hj : j ≠ i := by
      rintro rfl
      rw [hempty] at hk
      cases hk
    rw [hother j hj]
    exact hk
  refine h.step hmild ?_ (fun j e he hacc => ⟨hbufs.mem_ring he hacc, fun hj => ?_⟩)
    fun j k hk _ => hkept j k hk
  · rintro k (⟨holder, hk⟩ | hk)
    · refine .inr (.inl ⟨holder, ?_⟩)
      cases holder with
      | slot j => exact mem_socketsHeld_slot.mpr (hkept j k (mem_socketsHeld_slot.mp hk))
      | ring j =>
          simp only [socketsHeld] at hk ⊢
          rwa [hbufs.ring]
      | command => simpa only [socketsHeld, hbufs.commandRing] using hk
      | client a => simpa only [socketsHeld, hbufs.clients] using hk
    · refine .inr (.inl ⟨.slot i, mem_socketsHeld_slot.mpr ?_⟩)
      rw [hself]
      exact hhand k hk
  · obtain ⟨k, hk⟩ := Option.ne_none_iff_exists'.mp hj
    rw [hkept j k hk]
    exact Option.some_ne_none k

/-- CLOSE of a slot in whose ring no connection waits. -/
theorem Handled.frees (h : Handled s none) {i k : ℕ} (hk : (s.satelite i).socket = some k)
    (hchains : ∀ e ∈ (s.rxRing i).items, e.isAccepted = false) (hclosed : t.Closed k)
    (hmild : Mild s t) (hbufs : SameBufs s t) (hfrees : Frees s t i) : Handled t none := by
  have hother : ∀ j, j ≠ i → (t.satelite j).socket = (s.satelite j).socket := by
    intro j hj
    rw [hfrees.socket]
    simp [ServiceState.setSatelite, hj]
  refine h.step hmild ?_ (fun j e he hacc => ?_) fun j l hl hlisten => ?_
  · rintro l (⟨holder, hl⟩ | hl)
    · cases holder with
      | slot j =>
          have hl' := mem_socketsHeld_slot.mp hl
          by_cases hj : j = i
          · subst hj
            rw [hk] at hl'
            obtain rfl := Option.some.inj hl'
            exact .inl hclosed.1
          · refine .inr (.inl ⟨.slot j, mem_socketsHeld_slot.mpr ?_⟩)
            rw [hother j hj]
            exact hl'
      | ring j =>
          refine .inr (.inl ⟨.ring j, ?_⟩)
          simp only [socketsHeld] at hl ⊢
          rwa [hbufs.ring]
      | command =>
          refine .inr (.inl ⟨.command, ?_⟩)
          simpa only [socketsHeld, hbufs.commandRing] using hl
      | client a =>
          refine .inr (.inl ⟨.client a, ?_⟩)
          simpa only [socketsHeld, hbufs.clients] using hl
    · cases hl
  · have he' := hbufs.mem_ring he hacc
    have hj : j ≠ i := by
      rintro rfl
      rw [hchains e he'] at hacc
      cases hacc
    refine ⟨he', fun hslot => ?_⟩
    rw [hother j hj]
    exact hslot
  · have hj : j ≠ i := by
      rintro rfl
      rw [hk] at hl
      obtain rfl := Option.some.inj hl
      exact hclosed.2 hlisten
    rw [hother j hj]
    exact hl

/-- `process_commands` on one command that was taken from the ring. -/
theorem Handled.processCommand (hinv : ServiceInv s) (o : Answers) {cmd : Command}
    (h : Handled s cmd.descr) (hopens : ∀ i ∈ cmd.opens, ∀ holder, i ∉ slotsHeld s holder)
    (hclose : ∀ i, cmd = .close i → ∀ k ∈ (s.satelite i).socket, s.FlushesChains k)
    (hdecline : ∀ k, cmd = .decline k → s.FlushesChains k) :
    Outcome.Keeps (fun t => Handled t none) (s.processCommand o cmd) := by
  have hborn := (hinv.unborn s.next le_rfl).2
  have hbufs := sameBufs_processCommand o hclose hdecline
  have hslots : cmd.opens = none → (∀ i, cmd ≠ .close i) →
      Outcome.Keeps (SameSlots s) (s.processCommand o cmd) := sameSlots_processCommand o
  have hbinds : ∀ i, cmd.opens = some i →
      (∀ i type parent, cmd = .openSocket i type parent → o.created = true) →
      Outcome.Keeps (fun t => Binds s t i cmd.descr) (s.processCommand o cmd) :=
    fun _ => binds_processCommand o
  have hempty : ∀ i ∈ cmd.opens, (s.satelite i).socket = none := by
    intro i hi
    cases hsocket : (s.satelite i).socket with
    | none => rfl
    | some k =>
        refine absurd ?_ (hopens i hi (.bound i))
        rw [slotsHeld_of_socket hsocket]
        exact List.mem_singleton_self i
  by_cases hlisten : ∃ i, cmd = .listen i
  · obtain ⟨i, rfl⟩ := hlisten
    exact h.appGlueV4Listen i o.listens
  · have hmild := mild_processCommand hborn o fun i hi => hlisten ⟨i, hi⟩
    cases cmd with
    | openSocket i type parent =>
        by_cases hcreated : o.created = true
        · have hbinds := hbinds i rfl fun _ _ _ _ => hcreated
          exact ((hmild.and hbufs).and hbinds).mono fun t ht =>
            h.binds (hempty i rfl) ht.1.1 ht.1.2 ht.2
        · unfold ServiceState.processCommand
          dsimp only
          rw [if_neg hcreated]
          exact h
    | setSocketRing i k =>
        have hbinds := hbinds i rfl nofun
        exact ((hmild.and hbufs).and hbinds).mono fun t ht =>
          h.binds (hempty i rfl) ht.1.1 ht.1.2 ht.2
    | close i =>
        obtain ⟨t, ht, hcases⟩ := frees_processClose (s := s) o i
        rw [ht] at hmild hbufs ⊢
        rcases hcases with ⟨-, rfl⟩ | ⟨k, hk, hclosed, hfrees⟩
        · exact h
        · have hchains := hclose i rfl k hk i (hinv.bound i k hk)
          exact Handled.frees h hk hchains hclosed hmild hbufs hfrees
    | decline k =>
        have hslots := hslots rfl nofun
        obtain ⟨t, ht, -, -⟩ := userFlushRxTx_spec s k
        have hclosed := closed_kernelClose ((t.leaveLists k o.waiting).appGlueSetUserData k none) k
        unfold ServiceState.processCommand at hmild hbufs hslots ⊢
        dsimp only at hmild hbufs hslots ⊢
        rw [ht] at hmild hbufs hslots ⊢
        have hsame := Handled.congr h (.of hbufs hslots) hmild
        refine ⟨fun j hj => ?_, hsame.pending, hsame.listening⟩
        rcases hsame.placed j hj with hj | hj | hj
        · exact .inl hj
        · exact .inr (.inl hj)
        · obtain rfl := Option.some.inj hj
          exact .inl hclosed.1
    | listen i => exact absurd ⟨i, rfl⟩ hlisten
    | _ =>
        exact ((hmild.and hbufs).and (hslots rfl nofun)).mono fun t ht =>
          h.congr (.of ht.1.2 ht.2) ht.1.1

/-- One round of `user_on_accept`, with a command buffer and room in the ring. -/
theorem Handled.acceptRound (hinv : ServiceInv s) (h : Handled s none) {k i b : ℕ} {pool : List ℕ}
    (hk : k < s.next) (hlisten : (s.sockets k).skState = .listen)
    (hpool : s.freeCommandPool = b :: pool) (huser : (s.sockets k).userData = some i)
    (hroom : 0 < (s.rxRing i).freeCount) :
    ∃ t, s.acceptRound k = .ok t ∧ Handled t none ∧ t.freeCommandPool = pool ∧
      (t.sockets k).userData = some i ∧ (t.rxRing i).freeCount + 1 = (s.rxRing i).freeCount := by
  have hslot : (s.satelite i).socket = some k := by
    obtain ⟨j, hj⟩ := h.listening k hlisten
    have hij := hinv.bound j k hj
    rw [huser] at hij
    obtain rfl := Option.some.inj hij
    exact hj
  have hborn := (hinv.unborn s.next le_rfl).2
  let before := ServiceState.appGlueSetUserData (ServiceState.call
    { (s.kernelAccept k).2 with freeCommandPool := pool } .getUserData k) s.next none
  let entry := RxEntry.accepted b s.next
  have hfits : ¬ (s.rxRing i).freeCount < [entry].length := Nat.not_lt.mpr hroom
  let ring := ((s.rxRing i).enqueueBulk (dataRingCapacity + 1) [entry]).2
  have hitems : ring.items = (s.rxRing i).items ++ [entry] := by
    rw [Ring.items_enqueueBulk, if_neg hfits]
  have hround : s.acceptRound k = .ok (before.setRxRing i ring) := by
    rw [acceptRound_eq, hpool, huser]
    show Except.ok (ServiceState.ipaugenblickPostAccepted _ b s.next i) = _
    unfold ServiceState.ipaugenblickPostAccepted
    split
    next ring' hfull =>
        exact absurd (Ring.freeCount_of_nobufs hfull) (Nat.ne_of_gt hroom)
    next code ring' hcode hqueued =>
        have hring : ring' = ring := (congrArg Prod.snd hqueued).symm
        rw [hring]
  have hsockets : ∀ j, j ≠ s.next → (before.setRxRing i ring).sockets j = s.sockets j := by
    intro j hj
    have hdata : before.sockets j = (s.kernelAccept k).2.sockets j :=
      ServiceState.setSocket_of_ne _ hj _
    exact hdata.trans (Function.update_of_ne hj _ _)
  have hnew : ((before.setRxRing i ring).sockets s.next).skState ≠ .listen := by
    simp [before, ServiceState.setRxRing, ServiceState.appGlueSetUserData, ServiceState.call,
      ServiceState.kernelAccept, ServiceState.newSocket]
  have hrings : ∀ j, j ≠ i → (before.setRxRing i ring).rxRing j = s.rxRing j :=
    fun j hj => Function.update_of_ne hj _ _
  have hself : (before.setRxRing i ring).rxRing i = ring := Function.update_self _ _ _
  have hheld : ∀ holder l, l ∈ socketsHeld s holder →
      l ∈ socketsHeld (before.setRxRing i ring) holder := by
    intro holder l hl
    cases holder with
    | ring j =>
        by_cases hj : j = i
        · subst hj
          simp only [socketsHeld] at hl ⊢
          rw [hself, hitems, List.filterMap_append]
          exact List.mem_append_left _ hl
        · simp only [socketsHeld] at hl ⊢
          rwa [hrings j hj]
    | slot j => exact hl
    | command => exact hl
    | client a => exact hl
  refine ⟨_, hround, ⟨fun j hj => ?_, fun j e he hacc => ?_, fun j hj => ?_⟩, rfl, ?_, ?_⟩
  · rcases List.mem_cons.mp hj with rfl | hj
    · refine .inr (.inl ⟨.ring i, ?_⟩)
      simp only [socketsHeld]
      rw [hself, hitems, List.filterMap_append]
      exact List.mem_append_right _ (List.mem_singleton_self _)
    · rcases h.placed j hj with hreleased | ⟨holder, hmem⟩ | hnone
      · have hne : j ≠ s.next := by
          rintro rfl
          rw [hborn] at hreleased
          cases hreleased
        rw [hsockets j hne]
        exact .inl hreleased
      · exact .inr (.inl ⟨holder, hheld holder j hmem⟩)
      · cases hnone
  · by_cases hji : j = i
    · subst hji
      show (s.satelite j).socket ≠ none
      rw [hslot]
      exact Option.some_ne_none k
    · rw [hrings j hji] at he
      exact h.pending j e he hacc
  · have hne : j ≠ s.next := by
      rintro rfl
      exact hnew hj
    rw [hsockets j hne] at hj
    exact h.listening j hj
  · rw [hsockets k hk.ne]
    exact huser
  · have hlength := congrArg List.length hitems
    rw [List.length_append, List.length_singleton] at hlength
    rw [hself]
    unfold Ring.freeCount at hroom ⊢
    omega

/-- `user_on_accept` with a command buffer and room in the ring for every connection. -/
theorem Handled.userOnAccept (hinv : ServiceInv s) (h : Handled s none) {k : ℕ} (hlive : s.Live k)
    (waiting : ℕ) (hpool : (s.sockets k).skState = .listen → waiting ≤ s.freeCommandPool.length)
    (hroom : (s.sockets k).skState = .listen →
      ∀ i ∈ (s.sockets k).userData, waiting ≤ (s.rxRing i).freeCount) :
    Outcome.Keeps (fun t => Handled t none) (ServiceState.userOnAccept k waiting s) := by
  induction waiting generalizing s with
  | zero => exact h
  | succ waiting ih =>
      unfold ServiceState.userOnAccept
      split
      next => exact h
      next hstate =>
          have hlisten := not_not.mp hstate
          have hpool' := hpool hlisten
          obtain ⟨i, hi⟩ := h.listening k hlisten
          have huser := hinv.bound i k hi
          have hroom' := hroom hlisten i huser
          cases hfree : s.freeCommandPool with
          | nil =>
              rw [hfree] at hpool'
              exact absurd hpool' (Nat.not_succ_le_zero waiting)
          | cons b pool =>
              rw [hfree] at hpool'
              obtain ⟨t, ht, hhandled, htpool, htuser, htroom⟩ :=
                h.acceptRound hinv hlive.1 hlisten hfree huser (by omega)
              have hkept := hinv.acceptRound hlive
              rw [ht] at hkept ⊢
              refine ih hkept.1 hhandled hkept.2 (fun _ => ?_) fun _ j hj => ?_
              · rw [htpool]
                exact Nat.le_of_succ_le_succ hpool'
              · rw [htuser] at hj
                obtain rfl := Option.some.inj hj
                omega

/-- Nothing changes for the sockets, and what the clients and the rings hand on is still held. -/
theorem Handled.pass (h : Handled s none) (hsockets : t.sockets = s.sockets)
    (haccepted : t.accepted = s.accepted) (hsatelite : t.satelite = s.satelite)
    (hheld : ∀ holder, ∀ k ∈ socketsHeld s holder, ∃ holder', k ∈ socketsHeld t holder')
    (hrings : ∀ i, ∀ e ∈ (t.rxRing i).items, e ∈ (s.rxRing i).items) : Handled t none := by
  refine h.step (.same hsockets haccepted) ?_ (fun i e he _ => ⟨hrings i e he, ?_⟩)
    fun i k hk _ => ?_
  · rintro k (⟨holder, hk⟩ | hk)
    · exact .inr (.inl (hheld holder k hk))
    · cases hk
  · rw [hsatelite]
    exact id
  · rw [hsatelite]
    exact hk

/-- A client moves on with the same socket in hand. -/
theorem Handled.setClient (h : Handled s none) {a : ℕ} {c : Client}
    (hc : c.pc.sock = (s.clients a).pc.sock) : Handled (s.setClient a c) none := by
  refine h.pass rfl rfl rfl (fun holder k hk => ⟨holder, ?_⟩) fun _ _ he => he
  cases holder with
  | client a' =>
      by_cases ha : a' = a
      · subst ha
        simpa [socketsHeld, clients_setClient, hc] using hk
      · simpa [socketsHeld, clients_setClient, ha] using hk
  | _ => exact hk

theorem Handled.calledWith (h : Handled s none) (a : ℕ) (cmd : Command) :
    Handled (s.calledWith a cmd) none := by
  unfold ServiceState.calledWith
  split
  · exact h.setClient rfl
  · exact h

theorem Handled.unseen (h : Handled s none) (free : Ring ℕ (connectionPoolSize - 1))
    (pool : List ℕ) (pc : ServicePc) (crash : Option Crash) (lostSlots : List ℕ) :
    Handled { s with freeConnectionsRing := free, freeCommandPool := pool, pc, crash, lostSlots }
      none := by
  refine h.pass rfl rfl rfl (fun holder k hk => ⟨holder, ?_⟩) fun _ _ he => he
  cases holder <;> exact hk

/-- A client takes an accepted connection from a ring. -/
theorem Handled.acceptTake (h : Handled s none) {i a b k : ℕ} {ring : Ring RxEntry dataRingCapacity}
    (hitems : (s.rxRing i).items = .accepted b k :: ring.items)
    (hidle : (s.clients a).pc = .idle) :
    Handled ((s.setRxRing i ring).setClientPc a (.accepting b k)) none := by
  refine h.pass rfl rfl rfl (fun holder l hl => ?_) fun j e he => ?_
  · cases holder with
    | ring j =>
        by_cases hj : j = i
        · subst hj
          simp only [socketsHeld, hitems, List.filterMap_cons, RxEntry.sock, List.mem_cons] at hl
          rcases hl with rfl | hl
          · refine ⟨.client a, ?_⟩
            simp [socketsHeld, ServiceState.setClientPc, clients_setClient, ClientPc.sock]
          · refine ⟨.ring j, ?_⟩
            simpa [socketsHeld, ServiceState.setClientPc, ServiceState.setClient,
              ServiceState.setRxRing] using hl
        · refine ⟨.ring j, ?_⟩
          simpa [socketsHeld, ServiceState.setClientPc, ServiceState.setClient,
            ServiceState.setRxRing, hj] using hl
    | client a' =>
        have ha : a' ≠ a := by
          rintro rfl
          simp [socketsHeld, hidle, ClientPc.sock] at hl
        refine ⟨.client a', ?_⟩
        simpa [socketsHeld, ServiceState.setClientPc, clients_setClient, ServiceState.setRxRing, ha]
          using hl
    | slot j => exact ⟨.slot j, hl⟩
    | command => exact ⟨.command, hl⟩
  · by_cases hj : j = i
    · subst hj
      rw [hitems]
      refine List.mem_cons_of_mem _ ?_
      simpa [ServiceState.setClientPc, ServiceState.setClient, ServiceState.setRxRing] using he
    · simpa [ServiceState.setClientPc, ServiceState.setClient, ServiceState.setRxRing, hj] using he

/-- A client queues its command. -/
theorem Handled.post (h : Handled s none) {a : ℕ} {c : CmdBuf} (hpc : (s.clients a).pc = .issuing c)
    (hroom : c.cmd.descr ≠ none → 0 < s.commandRing.freeCount) : Handled (s.post a c) none := by
  unfold ServiceState.post
  dsimp only
  split
  next ring hfull =>
      have hnone : c.cmd.descr = none := by
        by_contra hdescr
        exact absurd (Ring.freeCount_of_nobufs hfull) (Nat.ne_of_gt (hroom hdescr))
      have hidle : Handled (s.setClientPc a .idle) none := by
        refine h.setClient ?_
        rw [hpc]
        exact hnone.symm
      unfold ServiceState.notPosted
      split
      · exact hidle
      · exact hidle.unseen _ _ _ _ _
  next code ring hcode hqueued =>
      have hitems : ring.items = s.commandRing.items ++ [c] := Ring.items_of_queued hcode hqueued
      rw [posted_eq]
      refine h.pass rfl rfl rfl (fun holder k hk => ?_) fun _ _ he => he
      cases holder with
      | command =>
          refine ⟨.command, ?_⟩
          simp only [socketsHeld, hitems, List.filterMap_append]
          exact List.mem_append_left _ hk
      | client a' =>
          by_cases ha : a' = a
          · subst ha
            have hdescr : c.cmd.descr = some k := by
              simpa [socketsHeld, hpc, ClientPc.sock] using hk
            refine ⟨.command, ?_⟩
            simp [socketsHeld, hitems, hdescr]
          · refine ⟨.client a', ?_⟩
            simpa [socketsHeld, clients_setClient, ha] using hk
      | slot j => exact ⟨.slot j, hk⟩
      | ring j => exact ⟨.ring j, hk⟩

/-- The guard of the runs that lose no accepted socket: the service leaves no reference to a
socket it frees, there is a command buffer and room in the ring of the listener for every
connection, what is flushed or taken as a chain is one, and SET_SOCKET_RING and DECLINE find
room in the command ring. -/
def acceptedOk (s : ServiceState) (a : ServiceStep) : Prop :=
  releaseOk s a ∧ match a with
    | .service o => s.StepFlushesChains ∧
        (s.pc = .accepting → ∀ k ∈ (s.queue .accept).head?, (s.sockets k).skState = .listen →
          o.waiting ≤ s.freeCommandPool.length ∧
            ∀ i ∈ (s.sockets k).userData, o.waiting ≤ (s.rxRing i).freeCount)
    | .dequeueRx i => ∀ e ∈ (s.rxRing i).items.head?, e.isAccepted = false
    | .post a => ∀ c, (s.clients a).pc = .issuing c → c.cmd.descr ≠ none →
        0 < s.commandRing.freeCount
    | _ => True

/-- A step of the main loop. -/
theorem Handled.serviceStep (hinv : ServiceInv s) (h : Handled s none) (o : Answers)
    (hok : acceptedOk s (.service o)) :
    Outcome.Keeps (fun t => Handled t none) (s.serviceStep o) := by
  obtain ⟨-, hchains, hwaiting⟩ := hok
  by_cases hcommands : s.pc = .commands
  · have hdone : Outcome.Keeps (fun t => Handled t none) (s.processCommands o) := by
      unfold ServiceState.processCommands
      cases hring : s.commandRing.dequeue with
      | none => exact h
      | some taken =>
          obtain ⟨c, ring⟩ := taken
          have hitems := (Ring.dequeue_eq_some_iff _ _ _).mp hring
          obtain ⟨hinv', -, hopens⟩ := hinv.dequeueCommand hitems
          have hguard := hchains.1 hcommands c (by rw [hitems]; rfl)
          have hcommand := Handled.processCommand hinv' o (h.dequeueCommand hitems) hopens
            hguard.1 hguard.2
          exact hcommand.bind (fun _ ht => ht) fun t ht => ht.unseen _ _ _ _ _
    unfold ServiceState.serviceStep
    rw [hcommands]
    refine hdone.bind (fun _ ht => ht) fun t ht => ?_
    show Handled (if _ then _ else _) none
    split
    · exact ht.unseen _ _ _ _ _
    · exact ht.unseen _ _ _ _ _
  · by_cases haccepting : s.pc = .accepting
    · unfold ServiceState.serviceStep
      rw [haccepting]
      dsimp only
      split
      · exact h.unseen _ _ _ _ _
      next k rest hqueue =>
          have hhead : k ∈ (s.queue .accept).head? := by
            rw [hqueue]
            rfl
          have hlive : s.Live k := hinv.toSocketInv.live (q := .accept) (by
            rw [hqueue]
            exact List.mem_cons_self)
          have hguard := hwaiting haccepting k hhead
          have hdone := h.userOnAccept hinv hlive o.waiting (fun hl => (hguard hl).1)
            fun hl => (hguard hl).2
          refine hdone.bind (fun _ ht => ht) fun t ht => ?_
          exact ht.congr (sameHands.trans (sameHands.remove t .accept k) (sameHands.hold _ k _))
            (mild.trans (mild.remove t .accept k) (mild.hold _ k _))
    · have hsame := sameHands.serviceStep o hcommands haccepting
        fun hpc k hk => sameHands_userFlushRxTx (hchains.2 hpc k hk)
      have hmild := mild.serviceStep o hcommands haccepting fun _ k _ => mild_userFlushRxTx s k
      exact (hsame.and hmild).mono fun t ht => h.congr ht.1 ht.2

/-- A step of a client. -/
theorem Handled.clientStep (h : Handled s none) {step : ServiceStep} (hok : acceptedOk s step)
    (ht : s.clientStep step = some t) : Handled t none := by
  have hfree : ∀ ring, Handled { s with freeConnectionsRing := ring } none :=
    fun ring => h.unseen _ _ _ _ _
  have hpool : ∀ pool, Handled { s with freeCommandPool := pool } none :=
    fun pool => h.unseen _ _ _ _ _
  cases ServiceState.clientStep_move ht with
  | takeSlot hidle _ =>
      refine (hfree _).setClient ?_
      rw [hidle]
      rfl
  | @lostSlot a i type parent hpc _ =>
      have hidle : Handled (s.setClientPc a .idle) none := by
        refine h.setClient ?_
        rw [hpc]
        rfl
      exact hidle.unseen _ _ _ _ _
  | openCommand hpc _ =>
      refine (hpool _).setClient ?_
      rw [hpc]
      rfl
  | calledOnly hplain hidle _ => exact h.calledWith _ _
  | @getCommand a buf cmd pool hplain hidle _ =>
      refine ((hpool pool).calledWith a cmd).setClient ?_
      have hpc : ((ServiceState.calledWith { s with freeCommandPool := pool } a cmd).clients
          a).pc = .idle := by
        unfold ServiceState.calledWith
        split
        · simpa [clients_setClient] using hidle
        · exact hidle
      rw [hpc]
      exact (Command.plain_spec hplain).1
  | acceptTake hidle hring => exact h.acceptTake hring hidle
  | mbufTaken hring => exact h.unseen _ _ _ _ _
  | decline hpc =>
      refine h.setClient ?_
      rw [hpc]
      rfl
  | acceptSlot hpc _ =>
      refine (hfree _).setClient ?_
      rw [hpc]
      rfl
  | post hpc => exact h.post hpc (hok.2 _ hpc)
  | @dequeueRx i entry ring hring =>
      have hchain : entry.isAccepted = false := hok.2 entry (by rw [hring]; rfl)
      refine h.congr (.of ⟨rfl, rfl, rfl, fun j => ?_⟩ ⟨rfl, rfl, rfl, fun _ => rfl, rfl⟩)
        (.same rfl rfl)
      by_cases hj : j = i
      · subst hj
        simp [ServiceState.setRxRing, hring, hchain]
      · simp [ServiceState.setRxRing, hj]

end Handled

theorem handled_settle {r : Outcome} (h : r.Keeps fun t => Handled t none) :
    Handled (ServiceState.settle r) none := by
  cases r with
  | ok s => exact h
  | error e => exact Handled.unseen h _ _ _ _ _

/-- **Step lemma.**  A guarded step loses no accepted socket. -/
theorem handled_step {s t : ServiceState} {a : ServiceStep} (hinv : ServiceInv s)
    (h : Handled s none) (hok : acceptedOk s a) (ht : serviceMachine.step s a = some t) :
    Handled t none := by
  simp only [serviceMachine] at ht
  split at ht
  next => cases ht
  next =>
      split at ht
      next e =>
          obtain ⟨r, hr, rfl⟩ := Option.map_eq_some_iff.mp ht
          exact handled_settle (((sameHands.stackEvent hr).and (mild.stackEvent hr)).mono
            fun t ht => h.congr ht.1 ht.2)
      next o =>
          obtain rfl := Option.some.inj ht
          exact handled_settle (h.serviceStep hinv o hok)
      next => exact h.clientStep hok ht

theorem handled_init : Handled serviceMachine.init none where
  placed _ hk := nomatch hk
  pending _ _ he := nomatch he
  listening _ hk := nomatch hk

/-- **Run lemma.** -/
theorem handled_of_reachable {s : ServiceState}
    (hreach : serviceMachine.ReachableWhere acceptedOk s) : ServiceInv s ∧ Handled s none := by
  refine @Machine.invariant_of_step _ _ serviceMachine acceptedOk
    (fun s => ServiceInv s ∧ Handled s none) ⟨serviceInv_init, handled_init⟩ ?_ s hreach
  intro s a t h hok hstep
  exact ⟨serviceInv_step h.1 hok.1 hstep, handled_step h.1 h.2 hok hstep⟩

/-- Socket `k` is in exactly one place: closed and with nobody, or with one holder, once. -/
def InOnePlace (s : ServiceState) (k : ℕ) : Prop :=
  ((s.sockets k).released = true ∧ ∀ holder, k ∉ socketsHeld s holder) ∨
    ((s.sockets k).released = false ∧
      ∃ holder, (socketsHeld s holder).count k = 1 ∧
        ∀ holder', k ∈ socketsHeld s holder' → holder' = holder)

/-- **Accepted sockets are neither lost nor duplicated.**  In every run that meets the guard,
a socket that `kernel_accept` returned is closed, or it is in exactly one place: a receive
ring, a command or the hands of the client that is accepting it, or a slot.  The listener of
a socket that waits in a receive ring is open. -/
theorem accepted_socket_in_one_place {s : ServiceState}
    (hreach : serviceMachine.ReachableWhere acceptedOk s) :
    (∀ k ∈ s.accepted, InOnePlace s k) ∧
      ∀ i, ∀ k ∈ socketsHeld s (.ring i), ∃ l, (s.satelite i).socket = some l ∧
        (s.sockets l).released = false := by
  obtain ⟨hinv, h⟩ := handled_of_reachable hreach
  refine ⟨fun k hk => ?_, fun i k hk => ?_⟩
  · rcases h.placed k hk with hreleased | ⟨holder, hmem⟩ | hnone
    · refine .inl ⟨hreleased, fun holder hmem => ?_⟩
      rw [(hinv.held holder k hmem).2] at hreleased
      cases hreleased
    · refine .inr ⟨(hinv.held holder k hmem).2, holder, ?_, fun holder' hmem' => ?_⟩
      · exact List.count_eq_one_of_mem (hinv.sockets.nodup holder) hmem
      · exact hinv.sockets.unique hmem' hmem
    · cases hnone
  · obtain ⟨e, he, hsock⟩ := List.mem_filterMap.mp hk
    have hacc : e.isAccepted = true := by
      cases e with
      | mbuf => cases hsock
      | accepted b l => rfl
    obtain ⟨l, hl⟩ := Option.ne_none_iff_exists'.mp (h.pending i e he hacc)
    exact ⟨l, hl, (hinv.live_of_socket hl).2⟩

/-- A guard that can be evaluated, in place of `acceptedOk`. -/
def smoothOk (s : ServiceState) (a : ServiceStep) : Prop :=
  quietOk s a ∧ unflushedOk s a ∧ match a with
    | .service o => s.pc = .accepting → ∀ k ∈ (s.queue .accept).head?,
        o.waiting ≤ s.freeCommandPool.length ∧
          ∀ i ∈ (s.sockets k).userData, o.waiting ≤ (s.rxRing i).freeCount
    | _ => True

instance (s : ServiceState) : ∀ a, Decidable (smoothOk s a)
  | .service o => inferInstanceAs (Decidable (quietOk s (.service o) ∧
      unflushedOk s (.service o) ∧ (s.pc = .accepting → ∀ k ∈ (s.queue .accept).head?,
        o.waiting ≤ s.freeCommandPool.length ∧
          ∀ i ∈ (s.sockets k).userData, o.waiting ≤ (s.rxRing i).freeCount)))
  | .stack _ | .takeSlot _ _ _ | .openCommand _ | .getCommand _ _ | .acceptTake _ _
  | .acceptSlot _ | .post _ | .dequeueRx _ =>
      inferInstanceAs (Decidable (quietOk s _ ∧ unflushedOk s _ ∧ True))

theorem acceptedOk_of_smoothOk {s : ServiceState} {a : ServiceStep} (h : smoothOk s a) :
    acceptedOk s a := by
  obtain ⟨hquiet, hflush, hwaiting⟩ := h
  refine ⟨releaseOk_of_quietOk hquiet, ?_⟩
  cases a with
  | service o =>
      exact ⟨bufferOk_of_unflushedOk hflush, fun hpc k hk _ => hwaiting hpc k hk⟩
  | dequeueRx i => exact hflush.elim
  | post a => exact fun _ _ _ => hflush
  | _ => trivial

/-- The connection waits in the ring of its listener, which is about to be closed. -/
theorem closeWhilePendingRun_smooth : ∃ s, serviceMachine.run closeWhilePendingRun = some s ∧
    serviceMachine.ReachableWhere acceptedOk s ∧ s.crash = none ∧ s.accepted = [1] ∧
      (s.rxRing 0).items = [.accepted 0 1] := by
  have hrun : ((serviceMachine.restrict smoothOk).run closeWhilePendingRun).map
      (fun s => (s.crash, s.accepted, (s.rxRing 0).items)) =
        some (none, [1], [.accepted 0 1]) := by decide +kernel
  obtain ⟨s, hs, hview⟩ := Option.map_eq_some_iff.mp hrun
  have hreach := (serviceMachine.reachableWhere_of_run hs).mono fun _ _ => acceptedOk_of_smoothOk
  rw [Prod.mk.injEq, Prod.mk.injEq] at hview
  exact ⟨s, serviceMachine.runFrom_of_restrict _ hs, hreach, hview⟩

theorem accepted_socket_in_one_place_pending :
    ∃ s, serviceMachine.ReachableWhere acceptedOk s ∧ 1 ∈ s.accepted ∧
      1 ∈ socketsHeld s (.ring 0) ∧ (∀ k ∈ s.accepted, InOnePlace s k) ∧
        ∀ i, ∀ k ∈ socketsHeld s (.ring i), ∃ l, (s.satelite i).socket = some l ∧
          (s.sockets l).released = false := by
  obtain ⟨s, -, hreach, -, haccepted, hring⟩ := closeWhilePendingRun_smooth
  refine ⟨s, hreach, ?_, ?_, accepted_socket_in_one_place hreach⟩
  · rw [haccepted]
    exact List.mem_singleton_self 1
  · simp [socketsHeld, hring, RxEntry.sock]

/-- The flush of `ipaugenblick_close` on the listener takes the ACCEPTED command for an mbuf:
the connection is then nowhere, and not closed. -/
theorem listener_close_loses_accepted_socket :
    ∃ s, serviceMachine.run (closeWhilePendingRun ++ [.dequeueRx 0]) = some s ∧ 1 ∈ s.accepted ∧
      ¬ InOnePlace s 1 := by
  obtain ⟨s, hrun, hreach, hup, haccepted, hring⟩ := closeWhilePendingRun_smooth
  obtain ⟨hinv, -⟩ := handled_of_reachable hreach
  have hdequeue : (s.rxRing 0).dequeue = some (.accepted 0 1, .empty) :=
    (Ring.dequeue_eq_some_iff _ _ _).mpr hring
  have hstep : serviceMachine.step s (.dequeueRx 0) = some (s.setRxRing 0 .empty) := by
    simp [serviceMachine, hup, ServiceState.clientStep, hdequeue]
  have hfirst : socketsHeld s (.ring 0) = 1 :: [] := by
    simp [socketsHeld, hring, RxEntry.sock]
  have hgone : Exclusive (socketsHeld (s.setRxRing 0 .empty)) ∧
      ∀ holder, 1 ∉ socketsHeld (s.setRxRing 0 .empty) holder := by
    refine hinv.sockets.take hfirst ?_ fun holder hne => ?_
    · simp [socketsHeld, ServiceState.setRxRing]
    · cases holder with
      | ring j =>
          have hj : j ≠ 0 := fun hj => hne (by rw [hj])
          simp [socketsHeld, ServiceState.setRxRing, hj, List.Subperm.refl]
      | _ => exact List.Subperm.refl _
  have hopen : (s.sockets 1).released = false := by
    refine (hinv.held (.ring 0) 1 ?_).2
    rw [hfirst]
    exact List.mem_cons_self
  refine ⟨s.setRxRing 0 .empty, ?_, ?_, ?_⟩
  · unfold Machine.run at hrun ⊢
    rw [Machine.runFrom_append, hrun]
    simp [hstep]
  · show 1 ∈ s.accepted
    rw [haccepted]
    exact List.mem_singleton_self 1
  · rintro (⟨hreleased, -⟩ | ⟨-, holder, hcount, -⟩)
    · change (s.sockets 1).released = true at hreleased
      rw [hopen] at hreleased
      cases hreleased
    · exact hgone.2 holder (List.count_pos_iff.mp (by omega))

end IpAugenblick
