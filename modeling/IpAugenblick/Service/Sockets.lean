/-
# What refers to a socket

A socket can be in the five lists, bound to a slot, waiting as an accepted connection
in a receive ring, or on its way in a command.  `SocketInv` says that the lists agree
with their flags and hold no freed socket, and that no call was made on a freed socket;
`CustodyInv` says that every socket and every slot is handed from place to place, never
doubled.  The lemmas follow the functions of the source, from the smallest updates up.
-/

import IpAugenblick.Lib.Custody
import IpAugenblick.Service.Loop

namespace IpAugenblick

open Lib

/-- No call, latest first, is made on a socket after its `kernel_close`. -/
def WellUsed : List (KernelCall × ℕ) → Prop
  | [] => True
  | (_, k) :: earlier => (KernelCall.close, k) ∉ earlier ∧ WellUsed earlier

def Command.descr : Command → Option ℕ
  | .setSocketRing _ k => some k
  | .decline k => some k
  | _ => none

def RxEntry.sock : RxEntry → Option ℕ
  | .mbuf => none
  | .accepted _ k => some k

def ClientPc.sock : ClientPc → Option ℕ
  | .accepting _ k => some k
  | .issuing c => c.cmd.descr
  | _ => none

def ClientPc.slot : ClientPc → Option ℕ
  | .opening i _ _ => some i
  | .issuing c => c.cmd.opens
  | _ => none

inductive SocketHolder
  | slot (i : ℕ)
  | ring (i : ℕ)
  | command
  | client (a : ℕ)
  deriving DecidableEq

inductive SlotHolder
  | free
  | command
  | client (a : ℕ)
  | bound (i : ℕ)
  deriving DecidableEq

/-- The sockets that are bound or on their way to a slot. -/
def socketsHeld (s : ServiceState) : SocketHolder → List ℕ
  | .slot i => (s.satelite i).socket.toList
  | .ring i => (s.rxRing i).items.filterMap RxEntry.sock
  | .command => s.commandRing.items.filterMap (·.cmd.descr)
  | .client a => (s.clients a).pc.sock.toList

/-- The slots that are free, in use or on their way. -/
def slotsHeld (s : ServiceState) : SlotHolder → List ℕ
  | .free => s.freeConnectionsRing.items
  | .command => s.commandRing.items.filterMap (·.cmd.opens)
  | .client a => (s.clients a).pc.slot.toList
  | .bound i => (s.satelite i).socket.toList.map fun _ => i

/-- The lists, their flags and the record of calls.  A flag says that the socket is in the list,
so that no socket is put in twice, and what is in a list has not been freed. -/
structure SocketInv (s : ServiceState) : Prop where
  unborn : ∀ k, s.next ≤ k →
    (∀ q, (s.sockets k).present q = false) ∧ (s.sockets k).released = false
  nodup : ∀ q, (s.queue q).Nodup
  flags : ∀ q k, k ∈ s.queue q ↔ (s.sockets k).present q = true
  alive : ∀ q k, k ∈ s.queue q → (s.sockets k).released = false
  used : WellUsed s.calls
  closed : ∀ k, (KernelCall.close, k) ∈ s.calls → (s.sockets k).released = true

/-- The places that sockets and slots are handed between.  A socket that is handed over is with
one holder at each moment, and so is a slot; a slot and its socket point to each other. -/
structure CustodyInv (s : ServiceState) : Prop where
  sockets : Exclusive (socketsHeld s)
  slots : Exclusive (slotsHeld s)
  held : ∀ h k, k ∈ socketsHeld s h → k < s.next ∧ (s.sockets k).released = false
  bound : ∀ i k, (s.satelite i).socket = some k → (s.sockets k).userData = some i
  waits : ∀ k ∈ s.queue .buffersAvailable, ∃ i, (s.satelite i).socket = some k

/-- The invariant of the service: its lists are in order, and every socket and slot is in one
place. -/
structure ServiceInv (s : ServiceState) : Prop extends SocketInv s, CustodyInv s

/-- A socket that exists and was not freed. -/
def ServiceState.Live (s : ServiceState) (k : ℕ) : Prop :=
  k < s.next ∧ (s.sockets k).released = false

/-- No list and no holder has the socket. -/
def ServiceState.Unreferenced (s : ServiceState) (k : ℕ) : Prop :=
  (∀ q, k ∉ s.queue q) ∧ ∀ h, k ∉ socketsHeld s h

section Primitives

variable {s t : ServiceState} {k : ℕ}

theorem mem_socketsHeld_slot {i : ℕ} :
    k ∈ socketsHeld s (.slot i) ↔ (s.satelite i).socket = some k := by
  simp [socketsHeld]

theorem SocketInv.live (h : SocketInv s) {q : SocketQueue} (hk : k ∈ s.queue q) : s.Live k := by
  refine ⟨?_, h.alive q k hk⟩
  by_contra hge
  have hpresent := (h.flags q k).mp hk
  rw [(h.unborn k (Nat.le_of_not_lt hge)).1 q] at hpresent
  cases hpresent

theorem ServiceInv.live_of_socket (h : ServiceInv s) {i : ℕ}
    (hk : (s.satelite i).socket = some k) : s.Live k :=
  h.held (.slot i) k (mem_socketsHeld_slot.mpr hk)

/-- The holders are not affected by changes to other sockets. -/
theorem CustodyInv.frame (h : CustodyInv s) (hsockets : socketsHeld t = socketsHeld s)
    (hslots : slotsHeld t = slotsHeld s) (hsatelite : t.satelite = s.satelite)
    (hnext : s.next ≤ t.next)
    (hsame : ∀ holder k, k ∈ socketsHeld s holder →
      (t.sockets k).released = (s.sockets k).released ∧
        (t.sockets k).userData = (s.sockets k).userData)
    (hwaits : ∀ k ∈ t.queue .buffersAvailable, k ∈ s.queue .buffersAvailable) :
    CustodyInv t where
  sockets := hsockets ▸ h.sockets
  slots := hslots ▸ h.slots
  held holder k hk := by
    rw [hsockets] at hk
    have hold := h.held holder k hk
    exact ⟨hold.1.trans_le hnext, (hsame holder k hk).1.trans hold.2⟩
  bound i k hk := by
    rw [hsatelite] at hk
    exact (hsame _ k (mem_socketsHeld_slot.mpr hk)).2.trans (h.bound i k hk)
  waits k hk := by
    rw [hsatelite]
    exact h.waits k (hwaits k hk)

/-- A call on a socket that was not freed, other than its close. -/
theorem ServiceInv.call (h : ServiceInv s) {c : KernelCall} (hc : c ≠ .close)
    (hlive : (s.sockets k).released = false) : ServiceInv (s.call c k) where
  unborn := h.unborn
  nodup := h.nodup
  flags := h.flags
  alive := h.alive
  used := by
    refine ⟨fun hclosed => ?_, h.used⟩
    rw [h.closed k hclosed] at hlive
    cases hlive
  closed j hj := by
    rcases List.mem_cons.mp hj with heq | hj
    · exact absurd (congrArg Prod.fst heq).symm hc
    · exact h.closed j hj
  toCustodyInv := h.toCustodyInv.frame rfl rfl rfl le_rfl (fun _ _ _ => ⟨rfl, rfl⟩) fun _ hk => hk

/-- A change to a socket that the lists and the holders do not see. -/
theorem ServiceInv.setSocket (h : ServiceInv s) {f : Socket → Socket}
    (hpresent : ∀ sock, (f sock).present = sock.present)
    (hreleased : ∀ sock, (f sock).released = sock.released)
    (huser : (f (s.sockets k)).userData = (s.sockets k).userData) :
    ServiceInv (s.setSocket k f) := by
  have hsock : ∀ j, ((s.setSocket k f).sockets j).present = (s.sockets j).present ∧
      ((s.setSocket k f).sockets j).released = (s.sockets j).released ∧
      ((s.setSocket k f).sockets j).userData = (s.sockets j).userData := by
    intro j
    by_cases hj : j = k
    · subst hj
      simp [hpresent, hreleased, huser]
    · simp [hj]
  exact
    { unborn := fun j hj => by
        rw [(hsock j).1, (hsock j).2.1]
        exact h.unborn j hj
      nodup := h.nodup
      flags := fun q j => by
        rw [(hsock j).1]
        exact h.flags q j
      alive := fun q j hj => (hsock j).2.1.trans (h.alive q j hj)
      used := h.used
      closed := fun j hj => (hsock j).2.1.trans (h.closed j hj)
      toCustodyInv := h.toCustodyInv.frame rfl rfl rfl le_rfl (fun _ j _ => (hsock j).2)
        fun _ hj => hj }

theorem ServiceInv.hold (h : ServiceInv s) (k : ℕ) (d : ℤ) : ServiceInv (s.hold k d) :=
  h.setSocket (fun _ => rfl) (fun _ => rfl) rfl

theorem ServiceInv.setSkState (h : ServiceInv s) (k : ℕ) (st : TcpState) :
    ServiceInv (s.setSocket k fun sock => { sock with skState := st }) :=
  h.setSocket (fun _ => rfl) (fun _ => rfl) rfl

theorem ServiceInv.stateChange (h : ServiceInv s) (k : ℕ) (st : TcpState) :
    ServiceInv (s.stateChange k st) := by
  unfold ServiceState.stateChange
  split
  · exact h
  · exact h.setSkState k st

/-- The other fields are not looked at. -/
theorem ServiceInv.unseen (h : ServiceInv s) (readLen writeLen : ℕ) (pool : List ℕ)
    (pc : ServicePc) (crash : Option Crash) (accepted lostSlots : List ℕ) :
    ServiceInv { s with
      readSocketsQueueLen := readLen
      writeSocketsQueueLen := writeLen
      freeCommandPool := pool
      pc, crash, accepted, lostSlots } where
  toSocketInv := ⟨h.unborn, h.nodup, h.flags, h.alive, h.used, h.closed⟩
  toCustodyInv :=
    h.toCustodyInv.frame rfl rfl rfl le_rfl (fun _ _ _ => ⟨rfl, rfl⟩) fun _ hk => hk

theorem ServiceInv.count (h : ServiceInv s) (q : SocketQueue) (f : ℕ → ℕ) :
    ServiceInv (s.count q f) := by
  cases q <;> exact h.unseen _ _ _ _ _ _ _

/-- The presence flags after one of them is set for one socket. -/
theorem present_setPresent (s : ServiceState) (q : SocketQueue) (k : ℕ) (b : Bool) (j : ℕ)
    (r : SocketQueue) :
    ((s.setPresent q k b).sockets j).present r =
      if j = k ∧ r = q then b else (s.sockets j).present r := by
  unfold ServiceState.setPresent
  by_cases hj : j = k
  · subst hj
    by_cases hr : r = q
    · subst hr
      simp
    · simp [hr]
  · simp [hj]

theorem setPresent_same (s : ServiceState) (q : SocketQueue) (k : ℕ) (b : Bool) (j : ℕ) :
    ((s.setPresent q k b).sockets j).released = (s.sockets j).released ∧
      ((s.setPresent q k b).sockets j).userData = (s.sockets j).userData := by
  unfold ServiceState.setPresent
  by_cases hj : j = k
  · subst hj
    simp
  · simp [hj]

theorem setPresent_of_ne (s : ServiceState) (q : SocketQueue) {j k : ℕ} (hjk : j ≠ k) (b : Bool) :
    (s.setPresent q k b).sockets j = s.sockets j := s.setSocket_of_ne hjk _

theorem mem_queue_insertTail (s : ServiceState) (q r : SocketQueue) (k j : ℕ) :
    j ∈ (s.insertTail q k).queue r ↔ j ∈ s.queue r ∨ (j = k ∧ r = q) := by
  by_cases hr : r = q
  · subst hr
    simp [ServiceState.insertTail]
  · simp [ServiceState.insertTail, hr]

/-- A socket enters a list it is not in. -/
theorem ServiceInv.insertTail (h : ServiceInv s) {q : SocketQueue} (hlive : s.Live k)
    (habsent : (s.sockets k).present q = false)
    (hbuffers : q = .buffersAvailable → ∃ i, (s.satelite i).socket = some k) :
    ServiceInv (s.insertTail q k) where
  unborn j hj := by
    have hjk : j ≠ k := by
      rintro rfl
      exact absurd hlive.1 (Nat.not_lt.mpr hj)
    have hsame : (s.insertTail q k).sockets j = s.sockets j := setPresent_of_ne s q hjk _
    rw [hsame]
    exact h.unborn j hj
  nodup r := by
    by_cases hr : r = q
    · subst hr
      have hnot : k ∉ s.queue r := by
        intro hk
        rw [(h.flags r k).mp hk] at habsent
        cases habsent
      simp only [ServiceState.insertTail, Function.update_self]
      exact (h.nodup r).append (List.nodup_singleton k) (by simpa using hnot)
    · simp only [ServiceState.insertTail, Function.update_of_ne hr]
      exact h.nodup r
  flags r j := by
    rw [mem_queue_insertTail]
    refine Iff.trans ?_ (iff_of_eq (congrArg (· = true) (present_setPresent s q k true j r)).symm)
    rw [h.flags r j]
    by_cases hjr : j = k ∧ r = q
    · simp [hjr]
    · simp [hjr]
  alive r j hj := by
    refine (setPresent_same s q k true j).1.trans ?_
    rcases (mem_queue_insertTail s q r k j).mp hj with hj | ⟨rfl, _⟩
    · exact h.alive r j hj
    · exact hlive.2
  used := h.used
  closed j hj := (setPresent_same s q k true j).1.trans (h.closed j hj)
  sockets := h.sockets
  slots := h.slots
  held holder j hj := by
    have hold := h.held holder j hj
    exact ⟨hold.1, (setPresent_same s q k true j).1.trans hold.2⟩
  bound i j hj := (setPresent_same s q k true j).2.trans (h.bound i j hj)
  waits j hj := by
    rcases (mem_queue_insertTail s q _ k j).mp hj with hj | ⟨rfl, hq⟩
    · exact h.waits j hj
    · exact hbuffers hq.symm

theorem SocketInv.mem_queue_remove (h : SocketInv s) (q r : SocketQueue) (j : ℕ) :
    j ∈ (s.remove q k).queue r ↔ j ∈ s.queue r ∧ ¬(j = k ∧ r = q) := by
  by_cases hr : r = q
  · subst hr
    simp only [ServiceState.remove, Function.update_self, and_true]
    rw [(h.nodup r).mem_erase_iff]
    exact and_comm
  · simp [ServiceState.remove, hr]

/-- A socket leaves a list. -/
theorem ServiceInv.remove (h : ServiceInv s) (k : ℕ) (q : SocketQueue) :
    ServiceInv (s.remove q k) where
  unborn j hj := by
    refine ⟨fun r => ?_, (setPresent_same s q k false j).1.trans (h.unborn j hj).2⟩
    refine (present_setPresent s q k false j r).trans ?_
    split
    · rfl
    · exact (h.unborn j hj).1 r
  nodup r := by
    by_cases hr : r = q
    · subst hr
      simp only [ServiceState.remove, Function.update_self]
      exact (h.nodup r).erase k
    · simp only [ServiceState.remove, Function.update_of_ne hr]
      exact h.nodup r
  flags r j := by
    rw [h.mem_queue_remove]
    refine Iff.trans ?_ (iff_of_eq (congrArg (· = true) (present_setPresent s q k false j r)).symm)
    rw [h.flags r j]
    by_cases hjr : j = k ∧ r = q
    · simp [hjr]
    · simp [hjr]
  alive r j hj :=
    (setPresent_same s q k false j).1.trans (h.alive r j ((h.mem_queue_remove q r j).mp hj).1)
  used := h.used
  closed j hj := (setPresent_same s q k false j).1.trans (h.closed j hj)
  toCustodyInv := h.toCustodyInv.frame rfl rfl rfl le_rfl
    (fun _ j _ => setPresent_same s q k false j)
    fun j hj => ((h.mem_queue_remove q _ j).mp hj).1

/-- A new socket, which nothing refers to yet. -/
theorem ServiceInv.newSocket (h : ServiceInv s) {sock : Socket}
    (hpresent : ∀ q, sock.present q = false) : ServiceInv (s.newSocket sock) where
  unborn j hj := by
    have hne : j ≠ s.next := Nat.ne_of_gt hj
    simp only [ServiceState.newSocket, Function.update_of_ne hne]
    exact h.unborn j (Nat.le_of_lt hj)
  nodup := h.nodup
  flags q j := by
    by_cases hj : j = s.next
    · subst hj
      have hout : s.next ∉ s.queue q := fun hmem => lt_irrefl _ (h.toSocketInv.live hmem).1
      simp [ServiceState.newSocket, hpresent, hout]
    · simp only [ServiceState.newSocket, Function.update_of_ne hj]
      exact h.flags q j
  alive q j hj := by
    have hne : j ≠ s.next := (h.toSocketInv.live hj).1.ne
    simp only [ServiceState.newSocket, Function.update_of_ne hne]
    exact h.alive q j hj
  used := h.used
  closed j hj := by
    have hne : j ≠ s.next := by
      rintro rfl
      have hborn := h.closed _ hj
      rw [(h.unborn _ le_rfl).2] at hborn
      cases hborn
    simp only [ServiceState.newSocket, Function.update_of_ne hne]
    exact h.closed j hj
  toCustodyInv := by
    refine h.toCustodyInv.frame rfl rfl rfl (Nat.le_succ _) ?_ fun _ hk => hk
    intro holder j hj
    have hne : j ≠ s.next := (h.held holder j hj).1.ne
    simp [ServiceState.newSocket, hne]

/-- The close of a socket that nothing refers to. -/
theorem ServiceInv.kernelClose (h : ServiceInv s) (hlive : s.Live k)
    (hfree : s.Unreferenced k) : ServiceInv (s.kernelClose k) where
  unborn j hj := by
    have hjk : j ≠ k := by
      rintro rfl
      exact absurd hlive.1 (Nat.not_lt.mpr hj)
    have hsame : (s.kernelClose k).sockets j = s.sockets j :=
      (s.call .close k).setSocket_of_ne hjk _
    rw [hsame]
    exact h.unborn j hj
  nodup := h.nodup
  flags q j := by
    have hpresent : ((s.kernelClose k).sockets j).present = (s.sockets j).present := by
      unfold ServiceState.kernelClose
      by_cases hj : j = k
      · subst hj
        simp [ServiceState.call]
      · simp [hj, ServiceState.call]
    rw [hpresent]
    exact h.flags q j
  alive q j hj := by
    have hjk : j ≠ k := by
      rintro rfl
      exact hfree.1 q hj
    exact (congrArg Socket.released ((s.call .close k).setSocket_of_ne hjk _)).trans
      (h.alive q j hj)
  used := by
    refine ⟨fun hclosed => ?_, h.used⟩
    have hreleased := h.closed k hclosed
    rw [hlive.2] at hreleased
    cases hreleased
  closed j hj := by
    by_cases hjk : j = k
    · subst hjk
      simp [ServiceState.kernelClose]
    · refine (congrArg Socket.released ((s.call .close k).setSocket_of_ne hjk _)).trans ?_
      rcases List.mem_cons.mp hj with heq | hj
      · exact absurd (congrArg Prod.snd heq) hjk
      · exact h.closed j hj
  toCustodyInv := by
    refine h.toCustodyInv.frame rfl rfl rfl le_rfl ?_ fun _ hk => hk
    intro holder j hj
    have hjk : j ≠ k := by
      rintro rfl
      exact hfree.2 holder hj
    have hsame := (s.call .close k).setSocket_of_ne hjk
      (fun sock => { sock with
        released := true
        skState := if sock.skState = .listen then .close else sock.skState })
    exact ⟨congrArg Socket.released hsame, congrArg Socket.userData hsame⟩

/-- A closed socket does not listen. -/
theorem skState_kernelClose (s : ServiceState) (k : ℕ) :
    ((s.kernelClose k).sockets k).skState ≠ .listen := by
  unfold ServiceState.kernelClose
  rw [ServiceState.setSocket_self]
  dsimp only
  split
  · decide
  next hne => exact hne

theorem SocketInv.congr (h : SocketInv s) (hsockets : t.sockets = s.sockets)
    (hnext : t.next = s.next) (hqueue : t.queue = s.queue) (hcalls : t.calls = s.calls) :
    SocketInv t where
  unborn := by
    rw [hsockets, hnext]
    exact h.unborn
  nodup := by
    rw [hqueue]
    exact h.nodup
  flags := by
    rw [hsockets, hqueue]
    exact h.flags
  alive := by
    rw [hsockets, hqueue]
    exact h.alive
  used := by
    rw [hcalls]
    exact h.used
  closed := by
    rw [hsockets, hcalls]
    exact h.closed

/-- Sockets and slots are handed on, while the sockets and the lists stay as they are. -/
theorem ServiceInv.pass (h : ServiceInv s) (hsame : SocketInv t)
    (hsockets : t.sockets = s.sockets) (hnext : t.next = s.next) (hqueue : t.queue = s.queue)
    (hsatelite : ∀ i, (t.satelite i).socket = (s.satelite i).socket)
    (hheld : Exclusive (socketsHeld t)) (hslots : Exclusive (slotsHeld t))
    (hmem : ∀ holder k, k ∈ socketsHeld t holder → ∃ holder', k ∈ socketsHeld s holder') :
    ServiceInv t where
  toSocketInv := hsame
  sockets := hheld
  slots := hslots
  held holder k hk := by
    obtain ⟨holder', hk'⟩ := hmem holder k hk
    rw [hsockets, hnext]
    exact h.held holder' k hk'
  bound i k hk := by
    rw [hsockets]
    exact h.bound i k ((hsatelite i).symm.trans hk)
  waits k hk := by
    rw [hqueue] at hk
    obtain ⟨i, hi⟩ := h.waits k hk
    exact ⟨i, (hsatelite i).trans hi⟩

/-- A receive ring loses elements, or gains chains. -/
theorem ServiceInv.setRxRing (h : ServiceInv s) {i : ℕ} {r : Ring RxEntry dataRingCapacity}
    (hless : (r.items.filterMap RxEntry.sock).Subperm
      ((s.rxRing i).items.filterMap RxEntry.sock)) : ServiceInv (s.setRxRing i r) := by
  have hsub : ∀ holder, (socketsHeld (s.setRxRing i r) holder).Subperm (socketsHeld s holder) := by
    intro holder
    cases holder with
    | ring j =>
        by_cases hj : j = i
        · subst hj
          simpa [socketsHeld, ServiceState.setRxRing] using hless
        · simp [socketsHeld, ServiceState.setRxRing, hj, List.Subperm.refl]
    | slot j => exact List.Subperm.refl _
    | command => exact List.Subperm.refl _
    | client a => exact List.Subperm.refl _
  exact h.pass (h.toSocketInv.congr rfl rfl rfl rfl) rfl rfl rfl (fun _ => rfl)
    (h.sockets.drop hsub) h.slots fun holder k hk => ⟨holder, (hsub holder).subset hk⟩

/-- The user data of a socket that no slot has. -/
theorem ServiceInv.appGlueSetUserData (h : ServiceInv s) (data : Option ℕ)
    (hbound : ∀ i, (s.satelite i).socket = some k → data = some i) :
    ServiceInv (s.appGlueSetUserData k data) := by
  have hsame : ∀ j, ((s.appGlueSetUserData k data).sockets j).present = (s.sockets j).present ∧
      ((s.appGlueSetUserData k data).sockets j).released = (s.sockets j).released := by
    intro j
    unfold ServiceState.appGlueSetUserData
    by_cases hj : j = k
    · subst hj
      simp
    · simp [hj]
  exact
    { unborn := fun j hj => by
        rw [(hsame j).1, (hsame j).2]
        exact h.unborn j hj
      nodup := h.nodup
      flags := fun q j => by
        rw [(hsame j).1]
        exact h.flags q j
      alive := fun q j hj => (hsame j).2.trans (h.alive q j hj)
      used := h.used
      closed := fun j hj => (hsame j).2.trans (h.closed j hj)
      sockets := h.sockets
      slots := h.slots
      held := fun holder j hj =>
        ⟨(h.held holder j hj).1, (hsame j).2.trans (h.held holder j hj).2⟩
      bound := fun i j hj => by
        by_cases hjk : j = k
        · subst hjk
          exact (congrArg Socket.userData (s.setSocket_self j _)).trans (hbound i hj)
        · exact (congrArg Socket.userData (s.setSocket_of_ne hjk _)).trans (h.bound i j hj)
      waits := h.waits }

theorem slotsHeld_of_socket {i : ℕ} (hk : (s.satelite i).socket = some k) :
    slotsHeld s (.bound i) = [i] := by
  simp [slotsHeld, hk]

/-- A slot gives up its socket, which must not wait for buffers; nobody has the socket
and the slot then. -/
theorem ServiceInv.clearSatelite (h : ServiceInv s) {i : ℕ}
    (hk : (s.satelite i).socket = some k) (hwaits : k ∉ s.queue .buffersAvailable)
    {d : Satelite} (hd : d.socket = none) :
    ServiceInv (s.setSatelite i d) ∧ (∀ holder, k ∉ socketsHeld (s.setSatelite i d) holder) ∧
      ∀ holder, i ∉ slotsHeld (s.setSatelite i d) holder := by
  have hother : ∀ j, j ≠ i → (s.setSatelite i d).satelite j = s.satelite j :=
    fun j hj => Function.update_of_ne hj _ _
  have hself : (s.setSatelite i d).satelite i = d := Function.update_self _ _ _
  have hsockets : Exclusive (socketsHeld (s.setSatelite i d)) ∧
      ∀ holder, k ∉ socketsHeld (s.setSatelite i d) holder := by
    have hfirst : socketsHeld s (.slot i) = k :: [] := by simp [socketsHeld, hk]
    refine h.sockets.take hfirst ?_ fun holder hne => ?_
    · simp [socketsHeld, hself, hd]
    · cases holder with
      | slot j =>
          have hj : j ≠ i := fun hj => hne (by rw [hj])
          simp [socketsHeld, hother j hj, List.Subperm.refl]
      | ring j => exact List.Subperm.refl _
      | command => exact List.Subperm.refl _
      | client a => exact List.Subperm.refl _
  have hslots : Exclusive (slotsHeld (s.setSatelite i d)) ∧
      ∀ holder, i ∉ slotsHeld (s.setSatelite i d) holder := by
    have hfirst : slotsHeld s (.bound i) = i :: [] := slotsHeld_of_socket hk
    refine h.slots.take hfirst ?_ fun holder hne => ?_
    · simp [slotsHeld, hself, hd]
    · cases holder with
      | bound j =>
          have hj : j ≠ i := fun hj => hne (by rw [hj])
          simp [slotsHeld, hother j hj, List.Subperm.refl]
      | free => exact List.Subperm.refl _
      | command => exact List.Subperm.refl _
      | client a => exact List.Subperm.refl _
  refine ⟨?_, hsockets.2, hslots.2⟩
  exact
    { toSocketInv := h.toSocketInv.congr rfl rfl rfl rfl
      sockets := hsockets.1
      slots := hslots.1
      held := fun holder j hj => by
        cases holder with
        | slot l =>
            by_cases hl : l = i
            · subst hl
              simp [socketsHeld, hself, hd] at hj
            · refine h.held (.slot l) j ?_
              simpa only [socketsHeld, hother l hl] using hj
        | ring l => exact h.held (.ring l) j hj
        | command => exact h.held .command j hj
        | client a => exact h.held (.client a) j hj
      bound := fun j l hl => by
        by_cases hj : j = i
        · subst hj
          rw [hself, hd] at hl
          cases hl
        · rw [hother j hj] at hl
          exact h.bound j l hl
      waits := fun j hj => by
        obtain ⟨l, hl⟩ := h.waits j hj
        have hli : l ≠ i := by
          rintro rfl
          rw [hk] at hl
          exact hwaits (Option.some.inj hl ▸ hj)
        exact ⟨l, by rw [hother l hli]; exact hl⟩ }

/-- The satellite data of a slot changes, but for its socket. -/
theorem ServiceInv.resetSatelite (h : ServiceInv s) {i : ℕ} {d : Satelite}
    (hd : d.socket = (s.satelite i).socket) : ServiceInv (s.setSatelite i d) := by
  have hsame : ∀ j, ((s.setSatelite i d).satelite j).socket = (s.satelite j).socket := by
    intro j
    by_cases hj : j = i
    · subst hj
      simpa [ServiceState.setSatelite] using hd
    · simp [ServiceState.setSatelite, hj]
  have hsockets : socketsHeld (s.setSatelite i d) = socketsHeld s := by
    funext holder
    cases holder with
    | slot j => simp only [socketsHeld, hsame]
    | ring j => rfl
    | command => rfl
    | client a => rfl
  have hslots : slotsHeld (s.setSatelite i d) = slotsHeld s := by
    funext holder
    cases holder with
    | bound j => simp only [slotsHeld, hsame]
    | free => rfl
    | command => rfl
    | client a => rfl
  refine h.pass (h.toSocketInv.congr rfl rfl rfl rfl) rfl rfl rfl hsame (hsockets ▸ h.sockets)
    (hslots ▸ h.slots) fun holder k hk => ⟨holder, ?_⟩
  rwa [hsockets] at hk

/-- `ipaugenblick_free_socket` on a slot that nobody has. -/
theorem ServiceInv.freeSocket (h : ServiceInv s) {i : ℕ} (hi : ∀ holder, i ∉ slotsHeld s holder) :
    ServiceInv { s with
      freeConnectionsRing := (s.freeConnectionsRing.enqueueBulk connectionPoolSize [i]).2 } := by
  refine h.pass (h.toSocketInv.congr rfl rfl rfl rfl) rfl rfl rfl (fun _ => rfl) h.sockets ?_
    fun holder k hk => ⟨holder, hk⟩
  refine h.slots.give hi (j := .free) ?_ fun holder hne => ?_
  · simp only [slotsHeld, Ring.items_enqueueBulk]
    split
    · exact (List.sublist_cons_self _ _).subperm
    · exact (List.perm_append_singleton _ _).subperm
  · cases holder with
    | free => exact absurd rfl hne
    | command => exact List.Subperm.refl _
    | client a => exact List.Subperm.refl _
    | bound j => exact List.Subperm.refl _

/-- An empty slot that nobody else has gets a socket that nobody else has. -/
theorem ServiceInv.bindSatelite (h : ServiceInv s) {i : ℕ} {d : Satelite}
    (hd : d.socket = some k) (hlive : s.Live k) (hk : ∀ holder, k ∉ socketsHeld s holder)
    (hi : ∀ holder, i ∉ slotsHeld s holder) (huser : (s.sockets k).userData = some i) :
    ServiceInv (s.setSatelite i d) := by
  have hother : ∀ j, j ≠ i → (s.setSatelite i d).satelite j = s.satelite j :=
    fun j hj => Function.update_of_ne hj _ _
  have hself : (s.setSatelite i d).satelite i = d := Function.update_self _ _ _
  have hempty : (s.satelite i).socket = none := by
    cases hsocket : (s.satelite i).socket with
    | none => rfl
    | some l =>
        refine absurd ?_ (hi (.bound i))
        rw [slotsHeld_of_socket hsocket]
        exact List.mem_singleton_self i
  have hheld : ∀ holder, holder ≠ .slot i →
      socketsHeld (s.setSatelite i d) holder = socketsHeld s holder := by
    intro holder hne
    cases holder with
    | slot j =>
        have hj : j ≠ i := fun hj => hne (by rw [hj])
        simp only [socketsHeld, hother j hj]
    | ring j => rfl
    | command => rfl
    | client a => rfl
  have hheldSelf : socketsHeld (s.setSatelite i d) (.slot i) = [k] := by
    simp [socketsHeld, hself, hd]
  exact
    { toSocketInv := h.toSocketInv.congr rfl rfl rfl rfl
      sockets := by
        refine h.sockets.give hk (j := .slot i) ?_ fun holder hne => ?_
        · rw [hheldSelf]
          simp [socketsHeld, hempty, List.Subperm.refl]
        · rw [hheld holder hne]
      slots := by
        refine h.slots.give hi (j := .bound i) ?_ fun holder hne => ?_
        · simp [slotsHeld, hself, hd, hempty, List.Subperm.refl]
        · cases holder with
          | bound j =>
              have hj : j ≠ i := fun hj => hne (by rw [hj])
              simp [slotsHeld, hother j hj, List.Subperm.refl]
          | free => exact List.Subperm.refl _
          | command => exact List.Subperm.refl _
          | client a => exact List.Subperm.refl _
      held := fun holder j hj => by
        by_cases hne : holder = .slot i
        · subst hne
          rw [hheldSelf, List.mem_singleton] at hj
          subst hj
          exact hlive
        · rw [hheld holder hne] at hj
          exact h.held holder j hj
      bound := fun j l hl => by
        by_cases hj : j = i
        · subst hj
          rw [hself, hd] at hl
          obtain rfl := Option.some.inj hl
          exact huser
        · rw [hother j hj] at hl
          exact h.bound j l hl
      waits := fun j hj => by
        obtain ⟨l, hl⟩ := h.waits j hj
        have hli : l ≠ i := by
          rintro rfl
          rw [hempty] at hl
          cases hl
        exact ⟨l, by rw [hother l hli]; exact hl⟩ }

end Primitives

section Callbacks

variable {s : ServiceState} {k : ℕ}

/-- What holds of the state that an outcome leaves. -/
def Outcome.Keeps (P : ServiceState → Prop) : Outcome → Prop
  | .ok s => P s
  | .error (_, s) => P s

theorem Outcome.Keeps.bind {P Q : ServiceState → Prop} {r : Outcome}
    {f : ServiceState → Outcome} (hr : r.Keeps P) (herror : ∀ s, P s → Q s)
    (hok : ∀ s, P s → (f s).Keeps Q) : Outcome.Keeps Q (r >>= f) := by
  cases r with
  | ok s => exact hok s hr
  | error e => exact herror e.2 hr

theorem filterMap_sock_enqueue_mbuf (r : Ring RxEntry dataRingCapacity) :
    (r.enqueueBulk 1 [.mbuf]).2.items.filterMap RxEntry.sock =
      r.items.filterMap RxEntry.sock := by
  rw [Ring.items_enqueueBulk]
  split
  · rfl
  · simp [RxEntry.sock]

def RxEntry.isAccepted : RxEntry → Bool
  | .mbuf => false
  | .accepted _ _ => true

/-- Apart from the record of calls, only chains were added to receive rings. -/
def OnlyReceived (s t : ServiceState) : Prop :=
  ∃ calls rings, t = { s with calls, rxRing := rings } ∧
    ∀ j, (rings j).items.filter RxEntry.isAccepted = (s.rxRing j).items.filter RxEntry.isAccepted

theorem OnlyReceived.refl (s : ServiceState) : OnlyReceived s s :=
  ⟨s.calls, s.rxRing, rfl, fun _ => rfl⟩

theorem OnlyReceived.call (s : ServiceState) (c : KernelCall) (k : ℕ) :
    OnlyReceived s (s.call c k) := ⟨_, s.rxRing, rfl, fun _ => rfl⟩

theorem OnlyReceived.trans {s t u : ServiceState} (hst : OnlyReceived s t)
    (htu : OnlyReceived t u) : OnlyReceived s u := by
  obtain ⟨_, _, rfl, hfirst⟩ := hst
  obtain ⟨calls, rings, rfl, hsecond⟩ := htu
  exact ⟨calls, rings, rfl, fun j => (hsecond j).trans (hfirst j)⟩

theorem onlyReceived_enqueue_mbuf (s : ServiceState) (i : ℕ) :
    OnlyReceived s (s.setRxRing i ((s.rxRing i).enqueueBulk 1 [.mbuf]).2) := by
  refine ⟨_, _, rfl, fun j => ?_⟩
  by_cases hj : j = i
  · subst hj
    rw [Function.update_self, Ring.items_enqueueBulk]
    split
    · rfl
    · simp [RxEntry.isAccepted]
  · rw [Function.update_of_ne hj]

theorem onlyReceived_receiveLoop (k i ringFree available : ℕ) (s : ServiceState) :
    OnlyReceived s (ServiceState.receiveLoop k i ringFree available s) := by
  induction ringFree generalizing s available with
  | zero => exact .refl s
  | succ ringFree ih =>
      cases available with
      | zero => exact .call s _ k
      | succ available =>
          exact ((OnlyReceived.call s _ k).trans (onlyReceived_enqueue_mbuf _ i)).trans (ih _ _)

theorem onlyReceived_userDataAvailableCbk (s : ServiceState) (sock : Option ℕ) (available : ℕ) :
    Outcome.Keeps (OnlyReceived s) (s.userDataAvailableCbk sock available) := by
  cases sock with
  | none => exact .refl s
  | some k =>
      have hcall := OnlyReceived.call s .getUserData k
      simp only [ServiceState.userDataAvailableCbk, ServiceState.getUserData_bind]
      cases (s.sockets k).userData with
      | none => exact hcall
      | some i =>
          dsimp only
          split
          · exact hcall
          · exact hcall.trans (onlyReceived_receiveLoop k i _ available _)

theorem onlyReceived_sendLoop (k pages : ℕ) (s : ServiceState) :
    OnlyReceived s (ServiceState.sendLoop k pages s) := by
  induction pages generalizing s with
  | zero => exact .call s _ k
  | succ pages ih => exact ((OnlyReceived.call s _ k).trans (.call _ _ k)).trans (ih _)

theorem onlyReceived_sendmsgLoop (k datagrams : ℕ) (s : ServiceState) :
    OnlyReceived s (ServiceState.sendmsgLoop k datagrams s) := by
  induction datagrams generalizing s with
  | zero => exact .refl s
  | succ datagrams ih => exact (OnlyReceived.call s _ k).trans (ih _)

theorem onlyReceived_userOnTransmissionOpportunity (s : ServiceState) (sock : Option ℕ)
    (sent : ℕ) : Outcome.Keeps (OnlyReceived s) (s.userOnTransmissionOpportunity sock sent) := by
  cases sock with
  | none => exact .refl s
  | some k =>
      have hcall := OnlyReceived.call s .getUserData k
      simp only [ServiceState.userOnTransmissionOpportunity, ServiceState.getUserData_bind]
      cases (s.sockets k).userData with
      | none => exact hcall
      | some i =>
          dsimp only
          split
          · exact hcall
          · split
            · cases sent with
              | zero => exact hcall
              | succ pages => exact hcall.trans (onlyReceived_sendLoop k pages _)
            · exact hcall.trans (onlyReceived_sendmsgLoop k sent _)
            · exact hcall.trans (onlyReceived_sendmsgLoop k sent _)

theorem ServiceInv.receiveLoop (h : ServiceInv s) (hlive : (s.sockets k).released = false)
    (i ringFree available : ℕ) :
    ServiceInv (ServiceState.receiveLoop k i ringFree available s) := by
  induction ringFree generalizing s available with
  | zero => exact h
  | succ ringFree ih =>
      have hcall : ServiceInv (s.call .recvmsg k) := h.call (by decide) hlive
      cases available with
      | zero => exact hcall
      | succ available =>
          refine ih (hcall.setRxRing ?_) hlive available
          rw [filterMap_sock_enqueue_mbuf]

theorem ServiceInv.userDataAvailableCbk (h : ServiceInv s) {sock : Option ℕ}
    (hlive : ∀ k ∈ sock, s.Live k) (available : ℕ) :
    Outcome.Keeps ServiceInv (s.userDataAvailableCbk sock available) := by
  cases sock with
  | none => exact h
  | some k =>
      have hreleased := (hlive k rfl).2
      have hcall : ServiceInv (s.call .getUserData k) := h.call (by decide) hreleased
      simp only [ServiceState.userDataAvailableCbk, ServiceState.getUserData_bind]
      cases (s.sockets k).userData with
      | none => exact hcall
      | some i =>
          dsimp only
          split
          · exact hcall
          · exact hcall.receiveLoop hreleased i _ available

theorem ServiceInv.sendLoop (h : ServiceInv s) (hlive : (s.sockets k).released = false)
    (pages : ℕ) : ServiceInv (ServiceState.sendLoop k pages s) := by
  induction pages generalizing s with
  | zero => exact h.call (by decide) hlive
  | succ pages ih =>
      have hspace : ServiceInv (s.call .streamWspace k) := h.call (by decide) hlive
      have hpage : ServiceInv ((s.call .streamWspace k).call .sendpage k) :=
        hspace.call (by decide) hlive
      exact ih hpage hlive

theorem ServiceInv.sendmsgLoop (h : ServiceInv s) (hlive : (s.sockets k).released = false)
    (datagrams : ℕ) : ServiceInv (ServiceState.sendmsgLoop k datagrams s) := by
  induction datagrams generalizing s with
  | zero => exact h
  | succ datagrams ih =>
      have hsend : ServiceInv (s.call .sendmsg k) := h.call (by decide) hlive
      exact ih hsend hlive

theorem ServiceInv.userOnTransmissionOpportunity (h : ServiceInv s) {sock : Option ℕ}
    (hlive : ∀ k ∈ sock, s.Live k) (sent : ℕ) :
    Outcome.Keeps ServiceInv (s.userOnTransmissionOpportunity sock sent) := by
  cases sock with
  | none => exact h
  | some k =>
      have hreleased := (hlive k rfl).2
      have hcall : ServiceInv (s.call .getUserData k) := h.call (by decide) hreleased
      simp only [ServiceState.userOnTransmissionOpportunity, ServiceState.getUserData_bind]
      cases (s.sockets k).userData with
      | none => exact hcall
      | some i =>
          dsimp only
          split
          · exact hcall
          · split
            · cases sent with
              | zero => exact hcall
              | succ pages => exact hcall.sendLoop hreleased pages
            · exact hcall.sendmsgLoop hreleased sent
            · exact hcall.sendmsgLoop hreleased sent

/-- What `user_flush_rx_tx` does: three calls, and the receive ring of the slot that
the socket points to is empty. -/
theorem userFlushRxTx_eq (s : ServiceState) (k : ℕ) :
    s.userFlushRxTx k = .ok ((((match (s.sockets k).userData with
      | none => s
      | some i => s.setRxRing i .empty).call .flushRxTx k).call .getUserData k).call
        .getUserData k) := by
  have hdata : ((s.call .flushRxTx k).sockets k).userData = (s.sockets k).userData := rfl
  simp only [ServiceState.userFlushRxTx, ServiceState.getUserData_bind, hdata]
  cases (s.sockets k).userData <;> rfl

theorem ServiceInv.flushRing (h : ServiceInv s) :
    ServiceInv (match (s.sockets k).userData with
      | none => s
      | some i => s.setRxRing i .empty) := by
  cases (s.sockets k).userData with
  | none => exact h
  | some i => exact h.setRxRing (List.nil_sublist _).subperm

theorem sockets_flushRing (s : ServiceState) (k : ℕ) :
    (match (s.sockets k).userData with
      | none => s
      | some i => s.setRxRing i .empty).sockets = s.sockets := by
  cases (s.sockets k).userData <;> rfl

theorem ServiceInv.userFlushRxTx (h : ServiceInv s) (hlive : (s.sockets k).released = false) :
    ∃ t, s.userFlushRxTx k = .ok t ∧ ServiceInv t ∧ t.sockets = s.sockets ∧ t.next = s.next ∧
      t.queue = s.queue ∧ t.satelite = s.satelite ∧
      ∀ holder, socketsHeld t holder ⊆ socketsHeld s holder := by
  refine ⟨_, userFlushRxTx_eq s k, ?_, ?_⟩
  · have hlive' : ((match (s.sockets k).userData with
        | none => s
        | some i => s.setRxRing i .empty).sockets k).released = false := by
      rw [sockets_flushRing]
      exact hlive
    have hflush := h.flushRing.call (c := .flushRxTx) (by decide) hlive'
    have hdata := hflush.call (c := .getUserData) (by decide) hlive'
    exact hdata.call (by decide) hlive'
  · cases (s.sockets k).userData with
    | none => exact ⟨rfl, rfl, rfl, rfl, fun _ => List.Subset.refl _⟩
    | some i =>
        refine ⟨rfl, rfl, rfl, rfl, ?_⟩
        intro holder
        cases holder with
        | ring j =>
            by_cases hj : j = i
            · subst hj
              simp [socketsHeld, ServiceState.setRxRing, ServiceState.call]
            · simp [socketsHeld, ServiceState.setRxRing, ServiceState.call, hj]
        | slot j => exact List.Subset.refl _
        | command => exact List.Subset.refl _
        | client a => exact List.Subset.refl _

/-- A socket that nobody has goes into a receive ring. -/
theorem ServiceInv.ipaugenblickPostAccepted (h : ServiceInv s) (hlive : s.Live k)
    (hk : ∀ holder, k ∉ socketsHeld s holder) (buf i : ℕ) :
    ServiceInv (s.ipaugenblickPostAccepted buf k i) := by
  unfold ServiceState.ipaugenblickPostAccepted
  have hitems := Ring.items_enqueueBulk (dataRingCapacity + 1) (s.rxRing i) [.accepted buf k]
  split
  next => exact h.unseen _ _ _ _ _ _ _
  next code ring _ heq =>
      rw [heq] at hitems
      have hring : (ring.items.filterMap RxEntry.sock).Subperm
          (k :: (s.rxRing i).items.filterMap RxEntry.sock) := by
        dsimp only at hitems
        rw [hitems]
        split
        · exact (List.sublist_cons_self _ _).subperm
        · rw [List.filterMap_append]
          exact (List.perm_append_singleton _ _).subperm
      have hother : ∀ holder, holder ≠ .ring i →
          socketsHeld (s.setRxRing i ring) holder = socketsHeld s holder := by
        intro holder hne
        cases holder with
        | ring j =>
            have hj : j ≠ i := fun hj => hne (by rw [hj])
            simp only [socketsHeld, ServiceState.setRxRing, Function.update_of_ne hj]
        | slot j => rfl
        | command => rfl
        | client a => rfl
      have hself : socketsHeld (s.setRxRing i ring) (.ring i) =
          ring.items.filterMap RxEntry.sock := by
        simp [socketsHeld, ServiceState.setRxRing]
      exact
        { toSocketInv := h.toSocketInv.congr rfl rfl rfl rfl
          sockets := by
            refine h.sockets.give hk (j := .ring i) ?_ fun holder hne => ?_
            · rw [hself]
              exact hring
            · rw [hother holder hne]
          slots := h.slots
          held := fun holder j hj => by
            by_cases hne : holder = .ring i
            · subst hne
              rw [hself] at hj
              rcases List.mem_cons.mp (hring.subset hj) with rfl | hj
              · exact hlive
              · exact h.held (.ring i) j hj
            · rw [hother holder hne] at hj
              exact h.held holder j hj
          bound := h.bound
          waits := h.waits }

theorem ServiceInv.not_held_next (h : ServiceInv s) (holder : SocketHolder) :
    s.next ∉ socketsHeld s holder :=
  fun hmem => lt_irrefl _ (h.held holder _ hmem).1

/-- The socket that `kernel_accept` makes is live and nobody has it. -/
theorem ServiceInv.kernelAccept (h : ServiceInv s) (k : ℕ) :
    ServiceInv (s.kernelAccept k).2 ∧ (s.kernelAccept k).2.Live s.next ∧
      ∀ holder, s.next ∉ socketsHeld (s.kernelAccept k).2 holder := by
  refine ⟨?_, ⟨Nat.lt_succ_self _, ?_⟩, h.not_held_next⟩
  · unfold ServiceState.kernelAccept
    exact (h.newSocket fun _ => rfl).unseen _ _ _ _ _ _ _
  · simp [ServiceState.kernelAccept, ServiceState.newSocket]

theorem kernelAccept_sockets_of_lt (s : ServiceState) {j : ℕ} (hj : j < s.next) (k : ℕ) :
    (s.kernelAccept k).2.sockets j = s.sockets j := Function.update_of_ne hj.ne _ _

/-- The new socket has the user data of the listener. -/
theorem userData_kernelAccept (s : ServiceState) (k : ℕ) :
    ((s.kernelAccept k).2.sockets k).userData = (s.sockets k).userData := by
  by_cases hk : k = s.next
  · subst hk
    simp [ServiceState.kernelAccept, ServiceState.newSocket]
  · exact congrArg Socket.userData (Function.update_of_ne hk _ _)

/-- What a round of `user_on_accept` does, by whether there is a command buffer and
whether the listener has a slot. -/
theorem acceptRound_eq (s : ServiceState) (k : ℕ) :
    s.acceptRound k = match s.freeCommandPool with
      | [] => .ok (s.kernelAccept k).2
      | buf :: pool =>
          let t := (ServiceState.call { (s.kernelAccept k).2 with freeCommandPool := pool }
            .getUserData k).appGlueSetUserData s.next none
          match (s.sockets k).userData with
          | none => .error (.nullUserData, t)
          | some i => .ok (t.ipaugenblickPostAccepted buf s.next i) := by
  unfold ServiceState.acceptRound
  rw [← userData_kernelAccept s k]
  show (match s.freeCommandPool with
    | [] => _
    | buf :: pool => _ : Outcome) = _
  cases s.freeCommandPool with
  | nil => rfl
  | cons buf pool =>
      show (match ((s.kernelAccept k).2.sockets k).userData with
        | none => _
        | some i => _ : Outcome) = _
      cases ((s.kernelAccept k).2.sockets k).userData <;> rfl

theorem live_ipaugenblickPostAccepted (hlive : s.Live k) (buf newsock i : ℕ) :
    (s.ipaugenblickPostAccepted buf newsock i).Live k := by
  unfold ServiceState.ipaugenblickPostAccepted
  split <;> exact hlive

theorem ServiceInv.acceptRound (h : ServiceInv s) (hlive : s.Live k) :
    Outcome.Keeps (fun t => ServiceInv t ∧ t.Live k) (s.acceptRound k) := by
  obtain ⟨hnew, hnewLive, hnewHeld⟩ := h.kernelAccept k
  have hlive' : (s.kernelAccept k).2.Live k := by
    refine ⟨Nat.lt_succ_of_lt hlive.1, ?_⟩
    rw [kernelAccept_sockets_of_lt s hlive.1]
    exact hlive.2
  rw [acceptRound_eq]
  cases s.freeCommandPool with
  | nil => exact ⟨hnew, hlive'⟩
  | cons buf pool =>
      have hpool : ServiceInv { (s.kernelAccept k).2 with freeCommandPool := pool } :=
        hnew.unseen _ _ _ _ _ _ _
      have hcall := hpool.call (c := .getUserData) (by decide) hlive'.2
      have hdata := hcall.appGlueSetUserData (k := s.next) none (fun i hi =>
        absurd (mem_socketsHeld_slot.mpr hi) (hnewHeld (.slot i)))
      have hkept : ∀ {j}, (s.kernelAccept k).2.Live j → (ServiceState.appGlueSetUserData
          (ServiceState.call { (s.kernelAccept k).2 with freeCommandPool := pool }
            .getUserData k) s.next none).Live j := by
        intro j hj
        refine ⟨hj.1, ?_⟩
        by_cases hjn : j = s.next
        · subst hjn
          exact (congrArg Socket.released (ServiceState.setSocket_self _ _ _)).trans hj.2
        · exact (congrArg Socket.released (ServiceState.setSocket_of_ne _ hjn _)).trans hj.2
      dsimp only
      cases (s.sockets k).userData with
      | none => exact ⟨hdata, hkept hlive'⟩
      | some i => exact ⟨hdata.ipaugenblickPostAccepted (hkept hnewLive) hnewHeld buf i,
          live_ipaugenblickPostAccepted (hkept hlive') buf s.next i⟩

/-- **Rule for `user_on_accept`.**  What every round keeps, all of them keep. -/
theorem userOnAccept_keeps {P : ServiceState → Prop} (hs : P s)
    (hround : ∀ t, P t → (t.sockets k).skState = .listen → Outcome.Keeps P (t.acceptRound k))
    (waiting : ℕ) : Outcome.Keeps P (ServiceState.userOnAccept k waiting s) := by
  induction waiting generalizing s with
  | zero => exact hs
  | succ waiting ih =>
      unfold ServiceState.userOnAccept
      split
      · exact hs
      next hlisten =>
        exact (hround s hs (not_not.mp hlisten)).bind (fun _ ht => ht) fun t ht => ih ht

/-- **Rule for a round of the buffers-available loop.**  What its calls, the removal and the
end of the loop keep, the round keeps. -/
theorem buffersRound_keeps {P : ServiceState → Prop} (o : Answers)
    (hdata : P (s.call .getUserData k))
    (hspace : ∀ i k', (s.satelite i).socket = some k' →
      P ((s.call .getUserData k).call .streamWspace k'))
    (hremove : ∀ t, P t → P (t.remove .buffersAvailable k))
    (hdone : ∀ t, P t → P { t with pc := .commands }) : Outcome.Keeps P (s.buffersRound o k) := by
  simp only [ServiceState.buffersRound, ServiceState.getUserData_bind]
  cases (s.sockets k).userData with
  | none => exact hdata
  | some i =>
      have hsatelite : ((s.call .getUserData k).satelite i).socket = (s.satelite i).socket := rfl
      simp only [hsatelite]
      cases hk' : (s.satelite i).socket with
      | none => exact hdata
      | some k' =>
          have hready : P (if ((s.call .getUserData k).sockets k').type = .dgram then
              (s.call .getUserData k).call .streamWspace k' else s.call .getUserData k) := by
            split
            · exact hspace i k' hk'
            · exact hdata
          dsimp only
          generalize (if ((s.call .getUserData k).sockets k').type = .dgram then
              (s.call .getUserData k).call .streamWspace k' else s.call .getUserData k) = t at *
          split
          · exact hremove t hready
          · exact hdone t hready

/-- What closing the waiting connections of a listener leaves as it was. -/
structure OthersKept (s t : ServiceState) : Prop where
  next : s.next ≤ t.next
  sockets : ∀ j < s.next, t.sockets j = s.sockets j
  queue : t.queue = s.queue
  satelite : t.satelite = s.satelite
  held : socketsHeld t = socketsHeld s

theorem ServiceInv.closeWaiting (h : ServiceInv s) (hk : k < s.next) (waiting : ℕ) :
    ServiceInv (ServiceState.closeWaiting k waiting s) ∧
      OthersKept s (ServiceState.closeWaiting k waiting s) := by
  induction waiting generalizing s with
  | zero => exact ⟨h, le_rfl, fun _ _ => rfl, rfl, rfl, rfl⟩
  | succ waiting ih =>
      unfold ServiceState.closeWaiting
      split
      · exact ⟨h, le_rfl, fun _ _ => rfl, rfl, rfl, rfl⟩
      · obtain ⟨hnew, hnewLive, hnewHeld⟩ := h.kernelAccept k
        have hout : ∀ q, s.next ∉ (s.kernelAccept k).2.queue q :=
          fun q hq => lt_irrefl _ (h.toSocketInv.live hq).1
        have hclosed := hnew.kernelClose hnewLive ⟨hout, hnewHeld⟩
        obtain ⟨hrest, hkept⟩ := ih hclosed (Nat.lt_succ_of_lt hk)
        refine ⟨hrest, (Nat.le_succ _).trans hkept.next, fun j hj => ?_, hkept.queue,
          hkept.satelite, hkept.held⟩
        calc _ = ((s.kernelAccept k).2.kernelClose s.next).sockets j :=
              hkept.sockets j (Nat.lt_succ_of_lt hj)
          _ = (s.kernelAccept k).2.sockets j := ServiceState.setSocket_of_ne _ hj.ne _
          _ = s.sockets j := kernelAccept_sockets_of_lt s hj k

/-- What a socket's leaving of lists changes: only lists, and only for that socket. -/
structure Left (s t : ServiceState) (k : ℕ) : Prop where
  inv : ServiceInv t
  live : t.Live k
  queue : ∀ q j, j ∈ t.queue q → j ∈ s.queue q
  satelite : t.satelite = s.satelite
  held : socketsHeld t = socketsHeld s

theorem Left.refl (h : ServiceInv s) (hlive : s.Live k) : Left s s k :=
  ⟨h, hlive, fun _ _ hj => hj, rfl, rfl⟩

theorem Left.remove {t : ServiceState} (h : Left s t k) (q : SocketQueue) :
    Left s (t.remove q k) k ∧ k ∉ (t.remove q k).queue q := by
  refine ⟨⟨h.inv.remove k q, ⟨h.live.1, ?_⟩, fun r j hj => ?_, h.satelite, h.held⟩, ?_⟩
  · exact (setPresent_same t q k false k).1.trans h.live.2
  · exact h.queue r j ((h.inv.mem_queue_remove q r j).mp hj).1
  · intro hk
    exact ((h.inv.mem_queue_remove q q k).mp hk).2 ⟨rfl, rfl⟩

theorem Left.leave {t : ServiceState} (h : Left s t k) (q : SocketQueue) :
    Left s (t.leave q k) k ∧ k ∉ (t.leave q k).queue q := by
  unfold ServiceState.leave
  split
  · obtain ⟨hleft, hout⟩ := h.remove q
    have hcount : Left s ((t.remove q k).count q (· - 1)) k := by
      refine ⟨hleft.inv.count q _, ?_, ?_, ?_, ?_⟩ <;> cases q
      all_goals first
        | exact hleft.live
        | exact hleft.queue
        | exact hleft.satelite
        | exact hleft.held
    refine ⟨hcount, ?_⟩
    cases q <;> exact hout
  · refine ⟨h, fun hk => ?_⟩
    have hpresent := (h.inv.flags q k).mp hk
    contradiction

theorem Left.queue_of_not_mem {t : ServiceState} {q : SocketQueue} (h : Left s t k)
    (hk : k ∉ s.queue q) : k ∉ t.queue q := fun hmem => hk (h.queue q k hmem)

/-- After the first part of `app_glue_close_socket` the socket is in none of the four
lists. -/
theorem ServiceInv.leaveLists (h : ServiceInv s) (hlive : s.Live k) (waiting : ℕ) :
    Left s (s.leaveLists k waiting) k ∧
      ∀ q, q ≠ .buffersAvailable → k ∉ (s.leaveLists k waiting).queue q := by
  obtain ⟨hread, hreadOut⟩ := (Left.refl h hlive).leave .read
  obtain ⟨hwrite, hwriteOut⟩ := (Left.refl hread.inv hread.live).leave .write
  have hwriteRead : k ∉ ((s.leave .read k).leave .write k).queue .read :=
    hwrite.queue_of_not_mem hreadOut
  unfold ServiceState.leaveLists
  dsimp only
  generalize hu : (s.leave .read k).leave .write k = u at *
  have haccept : ∀ v, v = (if (u.sockets k).present .accept then
      (ServiceState.closeWaiting k waiting u).remove .accept k else u) →
      Left u v k ∧ k ∉ v.queue .accept := by
    rintro v rfl
    split
    next =>
        obtain ⟨hinv, hkept⟩ := hwrite.inv.closeWaiting hwrite.live.1 waiting
        have hclosed : Left u (ServiceState.closeWaiting k waiting u) k :=
          ⟨hinv, ⟨hwrite.live.1.trans_le hkept.next,
            (congrArg Socket.released (hkept.sockets k hwrite.live.1)).trans hwrite.live.2⟩,
            fun q j hj => by rwa [hkept.queue] at hj, hkept.satelite, hkept.held⟩
        exact hclosed.remove .accept
    next habsent =>
        refine ⟨Left.refl hwrite.inv hwrite.live, fun hk => ?_⟩
        exact habsent ((hwrite.inv.flags .accept k).mp hk)
  obtain ⟨haccepted, hacceptOut⟩ := haccept _ rfl
  generalize (if (u.sockets k).present .accept then
      (ServiceState.closeWaiting k waiting u).remove .accept k else u) = v at *
  obtain ⟨hclosed, hclosedOut⟩ := (Left.refl haccepted.inv haccepted.live).leave .closed
  refine ⟨⟨hclosed.inv, hclosed.live, fun q j hj => ?_, ?_, ?_⟩, fun q hq => ?_⟩
  · exact hread.queue q j (hwrite.queue q j (haccepted.queue q j (hclosed.queue q j hj)))
  · rw [hclosed.satelite, haccepted.satelite, hwrite.satelite, hread.satelite]
  · rw [hclosed.held, haccepted.held, hwrite.held, hread.held]
  · cases q with
    | read => exact hclosed.queue_of_not_mem (haccepted.queue_of_not_mem hwriteRead)
    | write => exact hclosed.queue_of_not_mem (haccepted.queue_of_not_mem hwriteOut)
    | accept => exact hclosed.queue_of_not_mem hacceptOut
    | closed => exact hclosedOut
    | buffersAvailable => exact absurd rfl hq

/-- `app_glue_close_socket` on a socket that nobody has and that does not wait for
buffers. -/
theorem ServiceInv.appGlueCloseSocket (h : ServiceInv s) (hlive : s.Live k)
    (hheld : ∀ holder, k ∉ socketsHeld s holder) (waiting : ℕ) :
    ServiceInv (s.appGlueCloseSocket k waiting) := by
  obtain ⟨hleft, hout⟩ := h.leaveLists hlive waiting
  have hbuffers : k ∉ s.queue .buffersAvailable := by
    intro hk
    obtain ⟨i, hi⟩ := h.waits k hk
    exact hheld (.slot i) (mem_socketsHeld_slot.mpr hi)
  have hdata := hleft.inv.appGlueSetUserData none fun i hi => by
    rw [hleft.satelite] at hi
    exact absurd (mem_socketsHeld_slot.mpr hi) (hheld (.slot i))
  refine hdata.kernelClose ⟨hleft.live.1, ?_⟩ ⟨fun q => ?_, fun holder => ?_⟩
  · exact (congrArg Socket.released (ServiceState.setSocket_self _ _ _)).trans hleft.live.2
  · by_cases hq : q = .buffersAvailable
    · subst hq
      exact hleft.queue_of_not_mem hbuffers
    · exact hout q hq
  · show k ∉ socketsHeld (s.leaveLists k waiting) holder
    rw [hleft.held]
    exact hheld holder

/-- `app_glue_close_socket` on the socket of a slot, which then gives it up and is free. -/
theorem ServiceInv.closeSlot (h : ServiceInv s) {i : ℕ} (hk : (s.satelite i).socket = some k)
    (hbuffers : k ∉ s.queue .buffersAvailable) (waiting : ℕ) :
    ServiceInv ((s.appGlueCloseSocket k waiting).setSatelite i .empty) ∧
      ∀ holder, i ∉ slotsHeld ((s.appGlueCloseSocket k waiting).setSatelite i .empty) holder := by
  obtain ⟨hleft, hout⟩ := h.leaveLists (h.live_of_socket hk) waiting
  have hk' : ((s.leaveLists k waiting).satelite i).socket = some k := by
    rw [hleft.satelite]
    exact hk
  obtain ⟨hclear, hnone, hfree⟩ := hleft.inv.clearSatelite (d := .empty) hk'
    (hleft.queue_of_not_mem hbuffers) rfl
  have hswap : (s.appGlueCloseSocket k waiting).setSatelite i .empty =
      (((s.leaveLists k waiting).setSatelite i .empty).appGlueSetUserData k none).kernelClose k :=
    rfl
  refine ⟨?_, hfree⟩
  rw [hswap]
  have hdata := hclear.appGlueSetUserData none fun j hj =>
    absurd (mem_socketsHeld_slot.mpr hj) (hnone (.slot j))
  refine hdata.kernelClose ⟨hleft.live.1, ?_⟩ ⟨fun q => ?_, hnone⟩
  · exact (congrArg Socket.released (ServiceState.setSocket_self _ _ _)).trans hleft.live.2
  · by_cases hq : q = .buffersAvailable
    · subst hq
      exact hleft.queue_of_not_mem hbuffers
    · exact hout q hq

theorem ServiceInv.enterList (h : ServiceInv s) (hlive : s.Live k) {q : SocketQueue}
    (hq : q ≠ .buffersAvailable) (habsent : (s.sockets k).present q = false) :
    ServiceInv ((s.hold k 1).insertTail q k) := by
  refine (h.hold k 1).insertTail ⟨hlive.1, ?_⟩ ?_ fun hb => absurd hb hq
  · simpa [ServiceState.hold] using hlive.2
  · simpa [ServiceState.hold] using habsent

theorem ServiceInv.appGlueSockWriteSpace (h : ServiceInv s) (hk : k < s.next) (writeable : Bool) :
    ServiceInv (s.appGlueSockWriteSpace k writeable) := by
  unfold ServiceState.appGlueSockWriteSpace
  split
  · exact h
  next hreleased =>
      split
      · exact h
      · split
        · exact h
        next habsent =>
            have hlive : s.Live k := ⟨hk, Bool.eq_false_iff.mpr hreleased⟩
            simp only [Bool.or_eq_true, not_or, Bool.not_eq_true] at habsent
            exact (h.enterList hlive (by decide) habsent.2).count .write _

/-- A new socket is live and nobody has it; datagram sockets are in the write list. -/
theorem ServiceInv.appGlueCreateSocket (h : ServiceInv s) (type : SockType) (writeable : Bool) :
    ServiceInv (s.appGlueCreateSocket type writeable).2 ∧
      (s.appGlueCreateSocket type writeable).2.Live s.next ∧
      socketsHeld (s.appGlueCreateSocket type writeable).2 = socketsHeld s ∧
      slotsHeld (s.appGlueCreateSocket type writeable).2 = slotsHeld s := by
  have hnew : ServiceInv (s.newSocket { Socket.unborn with type }) := h.newSocket fun _ => rfl
  have hlive : (s.newSocket { Socket.unborn with type }).Live s.next := by
    refine ⟨Nat.lt_succ_self _, ?_⟩
    simp [ServiceState.newSocket, Socket.unborn]
  unfold ServiceState.appGlueCreateSocket
  dsimp only
  split
  · exact ⟨hnew, hlive, rfl, rfl⟩
  · refine ⟨hnew.appGlueSockWriteSpace hlive.1 writeable, ?_, ?_⟩
    · unfold ServiceState.appGlueSockWriteSpace
      split
      · exact hlive
      · split
        · exact hlive
        · split
          · exact hlive
          · refine ⟨hlive.1, (setPresent_same _ .write s.next true s.next).1.trans ?_⟩
            simpa [ServiceState.hold] using hlive.2
    · unfold ServiceState.appGlueSockWriteSpace
      split
      · exact ⟨rfl, rfl⟩
      · split
        · exact ⟨rfl, rfl⟩
        · split <;> exact ⟨rfl, rfl⟩

end Callbacks

end IpAugenblick
