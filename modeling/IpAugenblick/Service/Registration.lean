/-
# Client registration

`ipaugenblick_create_client` takes an index from the ring of free clients and queues
CONNECT_CLIENT; the service then marks the client busy and puts three updates on its ring, which
`ipaugenblick_read_updates` takes one by one.  A client that ends queues DISCONNECT_CLIENT.

The index is not given back: neither by DISCONNECT_CLIENT nor by a create that fails after it took
one, and the ring of free clients has no room for the last index.  An update that was read is not
freed.  In the runs without these the indices are conserved.
-/

import IpAugenblick.Lib.Custody
import IpAugenblick.Lib.Machine
import IpAugenblick.Lib.Ring
import IpAugenblick.Service.Slots

namespace IpAugenblick

open Lib

/-- `IPAUGENBLICK_CLIENTS_POOL_SIZE`. -/
def clientsPoolSize : ℕ := 64

/-- The size of a client ring, one slot of which stays free. -/
def clientRingSize : ℕ := 64

/-- The first byte of an update. -/
inductive UpdateKind
  | newIfaces
  | newAddresses
  | endOfRecord
  deriving DecidableEq, Repr

/-- An mbuf of `on_client_connect`. -/
structure Update where
  mbuf : ℕ
  kind : UpdateKind
  /-- The process whose CONNECT_CLIENT it answers. -/
  client : ℕ
  deriving DecidableEq, Repr

inductive RegCommand
  | /-- CONNECT_CLIENT, queued by process `a`. -/
    connect (i a : ℕ)
  | disconnect (i : ℕ)
  deriving DecidableEq, Repr

structure RegClient where
  alive : Bool
  /-- `ringset_idx` inside `ipaugenblick_create_client`. -/
  taken : Option ℕ
  clientRing : Option ℕ
  gClientRingsetIdx : ℕ
  /-- The indices of its creates that returned 0. -/
  owned : List ℕ

structure RegState where
  freeClientsRing : Ring ℕ (clientsPoolSize - 1)
  clients : ℕ → RegClient
  commands : List RegCommand
  isBusy : ℕ → Bool
  /-- `ipaugenblick_clients_list_head`. -/
  clientsList : List ℕ
  clientRing : ℕ → Ring Update (clientRingSize - 1)
  /-- The mbufs that `get_buffer` has returned. -/
  buffers : ℕ
  /-- Those that were put on a ring. -/
  produced : List ℕ
  freed : List ℕ
  /-- The updates that were read, with the process that read them. -/
  reads : List (Update × ℕ)

inductive RegStep
  | /-- `ipaugenblick_create_client` takes an index. -/
    dequeueClient (a : ℕ)
  | /-- The rest of it: the ring is found, there is a command buffer, it can be queued. -/
    createClient (a : ℕ) (found gotCommand room : Bool)
  | /-- `ipaugenblick_read_updates`. -/
    readUpdates (a : ℕ)
  | /-- `sig_handler`. -/
    terminate (a : ℕ) (gotCommand room : Bool)
  | /-- The service takes the next command; `get_buffer` answers `buffers` times. -/
    processCommand (buffers : ℕ)
  deriving DecidableEq, Repr

namespace RegState

variable (s : RegState)

def setClient (a : ℕ) (c : RegClient) : RegState :=
  { s with clients := Function.update s.clients a c }

/-- One update of `on_client_connect`. -/
def putUpdate (i a : ℕ) (kind : UpdateKind) : RegState :=
  match (s.clientRing i).enqueueBulk clientRingSize [⟨s.buffers, kind, a⟩] with
  | (.nobufs, _) => { s with buffers := s.buffers + 1 }
  | (_, ring) =>
      { s with
        clientRing := Function.update s.clientRing i ring
        buffers := s.buffers + 1
        produced := s.buffers :: s.produced }

/-- `on_client_connect`, which ends when there is no buffer. -/
def onClientConnect (i a : ℕ) (kinds : List UpdateKind) : RegState :=
  kinds.foldl (fun s kind => s.putUpdate i a kind) s

/-- CONNECT_CLIENT and DISCONNECT_CLIENT in `process_commands`. -/
def processCommand (buffers : ℕ) : RegCommand → RegState
  | .connect i a =>
      if clientsPoolSize ≤ i then s
      else if s.isBusy i then s
      else
        onClientConnect { s with
          clientsList := s.clientsList ++ [i]
          isBusy := Function.update s.isBusy i true } i a
          ([.newIfaces, .newAddresses, .endOfRecord].take buffers)
  | .disconnect i =>
      if clientsPoolSize ≤ i then s
      else if s.isBusy i then
        { s with clientsList := s.clientsList.erase i, isBusy := Function.update s.isBusy i false }
      else s

end RegState

/-- The indices that fit the ring when the service starts. -/
def initialClients : Ring ℕ (clientsPoolSize - 1) :=
  Ring.empty.enqueueBurst (List.range clientsPoolSize)

/-- The registration of clients.  A create takes its index in one step and is queued in a later
one, so a process may end, or others create, in between. -/
def regMachine : Machine RegState RegStep where
  init :=
    { freeClientsRing := initialClients
      clients := fun _ => ⟨true, none, none, connectionPoolSize, []⟩
      commands := [], isBusy := fun _ => false, clientsList := [], clientRing := fun _ => .empty
      buffers := 0, produced := [], freed := [], reads := [] }
  step s
    | .dequeueClient a =>
        if (s.clients a).alive ∧ (s.clients a).taken = none then
          match s.freeClientsRing.dequeue with
          | none => some s
          | some (i, ring) =>
              some (RegState.setClient { s with freeClientsRing := ring } a
                { s.clients a with taken := some i })
        else none
    | .createClient a found gotCommand room =>
        match (s.clients a).taken with
        | none => none
        | some i =>
            if !found then
              some (s.setClient a { s.clients a with taken := none, clientRing := none })
            else if !gotCommand || !room then
              some (s.setClient a { s.clients a with taken := none, clientRing := some i })
            else
              some (RegState.setClient { s with commands := s.commands ++ [.connect i a] } a
                { s.clients a with
                  taken := none
                  clientRing := some i
                  gClientRingsetIdx := i
                  owned := i :: (s.clients a).owned })
    | .readUpdates a =>
        match (s.clients a).clientRing with
        | none => none
        | some i =>
            if (s.clients a).alive ∧ (s.clients a).taken = none then
              match (s.clientRing i).dequeue with
              | none => some s
              | some (u, ring) =>
                  some { s with
                    clientRing := Function.update s.clientRing i ring
                    reads := (u, a) :: s.reads }
            else none
    | .terminate a gotCommand room =>
        if (s.clients a).alive then
          let s := s.setClient a { s.clients a with alive := false, taken := none }
          if gotCommand && room then
            some { s with
              commands := s.commands ++ [.disconnect (s.clients a).gClientRingsetIdx] }
          else some s
        else none
    | .processCommand buffers =>
        match s.commands with
        | [] => some s
        | c :: rest => some (RegState.processCommand { s with commands := rest } buffers c)

inductive IndexHolder
  | free
  | client (a : ℕ)
  | command

def RegCommand.index : RegCommand → Option ℕ
  | .connect _ _ => none
  | .disconnect i => if i < clientsPoolSize then some i else none

/-- The indices that are free, with a live client or on their way back. -/
def indicesHeld (s : RegState) : IndexHolder → List ℕ
  | .free => s.freeClientsRing.items
  | .client a =>
      if (s.clients a).alive then (s.clients a).taken.toList ++ (s.clients a).owned else []
  | .command => s.commands.filterMap RegCommand.index

inductive UpdateHolder
  | ring (i : ℕ)
  | freed

def updatesHeld (s : RegState) : UpdateHolder → List ℕ
  | .ring i => (s.clientRing i).items.map Update.mbuf
  | .freed => s.freed

/-- The indices `index` are conserved, the busy clients are those in the list, and updates are
read by the client that they are for. -/
structure RegState.Kept (s : RegState) (index : ℕ → Prop) : Prop where
  indices : Lib.Conserved (indicesHeld s) index
  nodup : s.clientsList.Nodup
  busy : ∀ i, s.isBusy i = true ↔ i ∈ s.clientsList
  reads : ∀ r ∈ s.reads, r.1.client = r.2

/-- An update that was put on a ring is there or was freed, once. -/
def RegState.UpdatesKept (s : RegState) : Prop := Lib.Conserved (updatesHeld s) (· ∈ s.produced)

/-- A create that took an index succeeds, a client that ends had one index at most and can say
so, and no DISCONNECT_CLIENT is processed. -/
def registrationOk (s : RegState) : RegStep → Prop
  | .createClient _ found gotCommand room => found ∧ gotCommand ∧ room
  | .terminate a gotCommand room =>
      (s.clients a).taken = none ∧
        ((s.clients a).owned = [] ∨ (s.clients a).owned.length = 1 ∧ gotCommand ∧ room)
  | .processCommand _ => ∀ c ∈ s.commands.head?, c.index = none
  | _ => True

/-- No update is read. -/
def unreadOk (s : RegState) : RegStep → Prop
  | .readUpdates a => ∀ i ∈ (s.clients a).clientRing, (s.clientRing i).items = []
  | _ => True

/-! ## Indices -/

/-- A CONNECT_CLIENT or an update is at home with the client that has the index, or the index is
on its way back. -/
def RegState.Home (s : RegState) (i a : ℕ) : Prop :=
  i ∈ indicesHeld s (.client a) ∨ i ∈ indicesHeld s .command

/-- What the registrations keep.  A process remembers the index of its last create only, which is
why an index is tied to its process in the commands and in the updates too. -/
structure RegInv (s : RegState) : Prop extends s.Kept (· < clientsPoolSize - 1) where
  last : ∀ a, (s.clients a).gClientRingsetIdx = (s.clients a).owned.head?.getD connectionPoolSize
  taken : ∀ a, (s.clients a).alive = false → (s.clients a).taken = none
  connects : ∀ i a, .connect i a ∈ s.commands → s.Home i a
  updates : ∀ i, ∀ u ∈ (s.clientRing i).items, s.Home i u.client
  rings : ∀ a, (s.clients a).alive = true → ∀ i ∈ (s.clients a).clientRing,
    i ∈ indicesHeld s (.client a)

section Registrations

variable {s t : RegState} {a i : ℕ}

theorem clients_regSetClient (s : RegState) (a : ℕ) (c : RegClient) (b : ℕ) :
    (s.setClient a c).clients b = if b = a then c else s.clients b := Function.update_apply _ _ _ _

/-- The holders have what they had, or the client has one more. -/
theorem Home.mono {b : ℕ} (h : s.Home i b)
    (hclient : ∀ b j, j ∈ indicesHeld s (.client b) → j ∈ indicesHeld t (.client b))
    (hcommand : ∀ j, j ∈ indicesHeld s .command → j ∈ indicesHeld t .command) : t.Home i b :=
  h.imp (hclient b i) (hcommand i)

theorem RegInv.dequeueClient (h : RegInv s) {ring : Ring ℕ (clientsPoolSize - 1)}
    (halive : (s.clients a).alive = true) (htaken : (s.clients a).taken = none)
    (hring : s.freeClientsRing.items = i :: ring.items) :
    RegInv (RegState.setClient { s with freeClientsRing := ring } a
      { s.clients a with taken := some i }) := by
  set t := RegState.setClient { s with freeClientsRing := ring } a
    { s.clients a with taken := some i } with ht
  have hself : indicesHeld t (.client a) = i :: indicesHeld s (.client a) := by
    simp [indicesHeld, ht, clients_regSetClient, halive, htaken]
  have hother : ∀ b, b ≠ a → indicesHeld t (.client b) = indicesHeld s (.client b) := by
    intro b hb
    simp [indicesHeld, ht, clients_regSetClient, hb]
  have hgrow : ∀ b j, j ∈ indicesHeld s (.client b) → j ∈ indicesHeld t (.client b) := by
    intro b j hj
    by_cases hb : b = a
    · subst hb
      rw [hself]
      exact List.mem_cons_of_mem i hj
    · rwa [hother b hb]
  refine ⟨⟨?_, h.nodup, h.busy, h.reads⟩, fun b => ?_, fun b hb => ?_, fun j b hj => ?_,
    fun j u hu => ?_, fun b hb j hj => ?_⟩
  · refine h.indices.hand (i := .free) (j := .client a) (a := i) nofun ?_ ?_ ?_
    · exact hring ▸ List.Perm.refl _
    · rw [hself]
    · intro holder hfree hclient
      cases holder with
      | free => exact absurd rfl hfree
      | client b => exact hother b fun hb => hclient (by rw [hb])
      | command => rfl
  · rw [clients_regSetClient]
    split
    next hb =>
        subst hb
        exact h.last b
    next => exact h.last b
  · rw [clients_regSetClient] at hb ⊢
    split at hb
    next hba =>
        rw [halive] at hb
        cases hb
    next hba =>
        rw [if_neg hba]
        exact h.taken b hb
  · exact Home.mono (h.connects j b hj) hgrow fun _ hmem => hmem
  · exact Home.mono (h.updates j u hu) hgrow fun _ hmem => hmem
  · have hsame : (t.clients b).clientRing = (s.clients b).clientRing ∧
        (t.clients b).alive = (s.clients b).alive := by
      rw [clients_regSetClient]
      split
      next hba =>
          subst hba
          exact ⟨rfl, rfl⟩
      next => exact ⟨rfl, rfl⟩
    rw [hsame.1] at hj
    rw [hsame.2] at hb
    exact hgrow b j (h.rings b hb j hj)

/-- A create that succeeds keeps the index that it took. -/
theorem RegInv.createClient (h : RegInv s) (htaken : (s.clients a).taken = some i) :
    RegInv (RegState.setClient { s with commands := s.commands ++ [.connect i a] } a
      { s.clients a with
        taken := none
        clientRing := some i
        gClientRingsetIdx := i
        owned := i :: (s.clients a).owned }) := by
  have halive : (s.clients a).alive = true := by
    by_contra hdead
    rw [h.taken a (Bool.eq_false_iff.mpr hdead)] at htaken
    cases htaken
  set t := RegState.setClient { s with commands := s.commands ++ [.connect i a] } a
    { s.clients a with
      taken := none
      clientRing := some i
      gClientRingsetIdx := i
      owned := i :: (s.clients a).owned } with ht
  have hheld : indicesHeld t = indicesHeld s := by
    funext holder
    cases holder with
    | free => rfl
    | client b =>
        by_cases hb : b = a
        · subst hb
          simp [indicesHeld, ht, clients_regSetClient, halive, htaken]
        · simp [indicesHeld, ht, clients_regSetClient, hb]
    | command => simp [indicesHeld, ht, RegState.setClient, RegCommand.index]
  have hi : i ∈ indicesHeld s (.client a) := by
    simp [indicesHeld, halive, htaken]
  have hhome : ∀ {j b}, s.Home j b → t.Home j b := by
    intro j b hj
    unfold RegState.Home
    rw [hheld]
    exact hj
  refine ⟨⟨hheld ▸ h.indices, h.nodup, h.busy, h.reads⟩, fun b => ?_, fun b hb => ?_,
    fun j b hj => ?_, fun j u hu => hhome (h.updates j u hu), fun b hb j hj => ?_⟩
  · rw [clients_regSetClient]
    split
    next => rfl
    next => exact h.last b
  · rw [clients_regSetClient] at hb ⊢
    split
    next => rfl
    next hba =>
        rw [if_neg hba] at hb
        exact h.taken b hb
  · rcases List.mem_append.mp hj with hj | hj
    · exact hhome (h.connects j b hj)
    · obtain ⟨rfl, rfl⟩ := RegCommand.connect.inj (List.mem_singleton.mp hj)
      exact hhome (.inl hi)
  · rw [hheld]
    rw [clients_regSetClient] at hb hj
    split at hj
    next hba =>
        subst hba
        obtain rfl := Option.some.inj hj
        exact hi
    next hba =>
        rw [if_neg hba] at hb
        exact h.rings b hb j hj

/-- A client reads from the ring of an index of its own. -/
theorem RegInv.readUpdates (h : RegInv s) {u : Update} {ring : Ring Update (clientRingSize - 1)}
    (hring : (s.clients a).clientRing = some i) (halive : (s.clients a).alive = true)
    (hitems : (s.clientRing i).items = u :: ring.items) :
    RegInv { s with
      clientRing := Function.update s.clientRing i ring
      reads := (u, a) :: s.reads } := by
  have hmine : i ∈ indicesHeld s (.client a) := h.rings a halive i hring
  have howner : u.client = a := by
    rcases h.updates i u (by rw [hitems]; exact List.mem_cons_self) with hclient | hcommand
    · have hsame := h.indices.unique hclient hmine
      exact IndexHolder.client.inj hsame
    · have hsame := h.indices.unique hcommand hmine
      cases hsame
  refine ⟨⟨h.indices, h.nodup, h.busy, ?_⟩, h.last, h.taken, h.connects, fun j v hv => ?_, h.rings⟩
  · intro r hr
    rcases List.mem_cons.mp hr with rfl | hr
    · exact howner
    · exact h.reads r hr
  · refine h.updates j v ?_
    dsimp only at hv
    by_cases hj : j = i
    · subst hj
      rw [Function.update_self] at hv
      rw [hitems]
      exact List.mem_cons_of_mem u hv
    · rwa [Function.update_of_ne hj] at hv

/-- A client ends, and the commands that it queues give back what it had. -/
theorem RegInv.terminate (h : RegInv s) (halive : (s.clients a).alive = true)
    (htaken : (s.clients a).taken = none) (back : Option ℕ) (cmds : List RegCommand)
    (howned : (s.clients a).owned = back.toList)
    (hback : cmds.filterMap RegCommand.index = back.toList)
    (hcmds : ∀ j b, RegCommand.connect j b ∉ cmds) :
    RegInv { s.setClient a { s.clients a with alive := false, taken := none } with
      commands := s.commands ++ cmds } := by
  set t : RegState := { s.setClient a { s.clients a with alive := false, taken := none } with
    commands := s.commands ++ cmds } with ht
  have hothers : ∀ b, b ≠ a → t.clients b = s.clients b := fun b hb =>
    Function.update_of_ne hb _ _
  have hself : t.clients a = { s.clients a with alive := false, taken := none } :=
    Function.update_self _ _ _
  have hmine : indicesHeld s (.client a) = back.toList := by
    simp [indicesHeld, halive, htaken, howned]
  have hgone : indicesHeld t (.client a) = [] := by
    simp [indicesHeld, hself]
  have hother : ∀ b, b ≠ a → indicesHeld t (.client b) = indicesHeld s (.client b) := by
    intro b hb
    simp only [indicesHeld, hothers b hb]
  have hcommand : indicesHeld t .command = indicesHeld s .command ++ back.toList := by
    simp only [indicesHeld, ht, List.filterMap_append, hback]
  have hhome : ∀ {j b}, s.Home j b → t.Home j b := by
    rintro j b (hclient | hmem)
    · by_cases hb : b = a
      · subst hb
        refine .inr ?_
        rw [hcommand, ← hmine]
        exact List.mem_append_right _ hclient
      · refine .inl ?_
        rw [hother b hb]
        exact hclient
    · refine .inr ?_
      rw [hcommand]
      exact List.mem_append_left _ hmem
  refine ⟨⟨?_, h.nodup, h.busy, h.reads⟩, fun b => ?_, fun b hb => ?_, fun j b hj => ?_,
    fun j u hu => hhome (h.updates j u hu), fun b hb j hj => ?_⟩
  · cases back with
    | none =>
        refine h.indices.same fun holder => ?_
        cases holder with
        | free => exact .refl _
        | client b =>
            by_cases hb : b = a
            · subst hb
              rw [hgone, hmine]
              exact .refl _
            · rw [hother b hb]
        | command =>
            rw [hcommand, Option.toList_none, List.append_nil]
    | some i =>
        refine h.indices.hand (i := .client a) (j := .command) (a := i) nofun ?_ ?_ ?_
        · rw [hgone, hmine]
          exact .refl _
        · rw [hcommand]
          exact List.perm_append_comm
        · intro holder hclient hcmd
          cases holder with
          | free => rfl
          | client b => exact hother b fun hb => hclient (by rw [hb])
          | command => exact absurd rfl hcmd
  · by_cases hba : b = a
    · subst hba
      rw [hself]
      exact h.last b
    · rw [hothers b hba]
      exact h.last b
  · by_cases hba : b = a
    · subst hba
      rw [hself]
    · rw [hothers b hba] at hb ⊢
      exact h.taken b hb
  · rcases List.mem_append.mp hj with hj | hj
    · exact hhome (h.connects j b hj)
    · exact absurd hj (hcmds j b)
  · have hba : b ≠ a := by
      rintro rfl
      rw [hself] at hb
      cases hb
    rw [hothers b hba] at hb hj
    rw [hother b hba]
    exact h.rings b hb j hj

/-- The service takes a command that gives no index back. -/
theorem RegInv.takeCommand (h : RegInv s) {c : RegCommand} {rest : List RegCommand}
    (hcommands : s.commands = c :: rest) (hc : c.index = none) :
    RegInv { s with commands := rest } := by
  have hheld : indicesHeld { s with commands := rest } = indicesHeld s := by
    funext holder
    cases holder with
    | free => rfl
    | client b => rfl
    | command => simp [indicesHeld, hcommands, hc]
  have hhome : ∀ {j b}, s.Home j b → RegState.Home { s with commands := rest } j b := by
    intro j b hj
    unfold RegState.Home
    rw [hheld]
    exact hj
  refine ⟨⟨hheld ▸ h.indices, h.nodup, h.busy, h.reads⟩, h.last, h.taken, fun j b hj => ?_,
    fun j u hu => hhome (h.updates j u hu), fun b hb j hj => ?_⟩
  · refine hhome (h.connects j b ?_)
    rw [hcommands]
    exact List.mem_cons_of_mem c hj
  · rw [hheld]
    exact h.rings b hb j hj

/-- An update comes to the ring of a client that is at home there. -/
theorem RegInv.putUpdate (h : RegInv s) (hhome : s.Home i a) (kind : UpdateKind) :
    RegInv (s.putUpdate i a kind) ∧ (s.putUpdate i a kind).Home i a := by
  unfold RegState.putUpdate
  split
  next => exact ⟨⟨⟨h.indices, h.nodup, h.busy, h.reads⟩, h.last, h.taken, h.connects, h.updates,
    h.rings⟩, hhome⟩
  next code ring hcode hqueued =>
      refine ⟨⟨⟨h.indices, h.nodup, h.busy, h.reads⟩, h.last, h.taken, h.connects,
        fun j u hu => ?_, h.rings⟩, hhome⟩
      dsimp only at hu
      by_cases hj : j = i
      · subst hj
        rw [Function.update_self, Ring.items_of_queued (fun hc => hcode hc) hqueued] at hu
        rcases List.mem_append.mp hu with hu | hu
        · exact h.updates j u hu
        · rw [List.mem_singleton.mp hu]
          exact hhome
      · rw [Function.update_of_ne hj] at hu
        exact h.updates j u hu

theorem RegInv.onClientConnect (h : RegInv s) (hhome : s.Home i a) (kinds : List UpdateKind) :
    RegInv (s.onClientConnect i a kinds) := by
  unfold RegState.onClientConnect
  induction kinds generalizing s with
  | nil => exact h
  | cons kind kinds ih =>
      obtain ⟨hput, hhome'⟩ := h.putUpdate hhome kind
      exact ih hput hhome'

/-- CONNECT_CLIENT. -/
theorem RegInv.connect (h : RegInv s) (hhome : s.Home i a) (buffers : ℕ) :
    RegInv (s.processCommand buffers (.connect i a)) := by
  unfold RegState.processCommand
  dsimp only
  split
  next => exact h
  next =>
      split
      next => exact h
      next hidle =>
          have hout : i ∉ s.clientsList := fun hmem => hidle ((h.busy i).mpr hmem)
          have hlisted : RegInv { s with
              clientsList := s.clientsList ++ [i]
              isBusy := Function.update s.isBusy i true } := by
            refine ⟨⟨h.indices, ?_, fun j => ?_, h.reads⟩, h.last, h.taken, h.connects, h.updates,
              h.rings⟩
            · exact List.nodup_append.mpr ⟨h.nodup, List.nodup_singleton i, fun x hx y hy => by
                rintro rfl
                exact hout (List.mem_singleton.mp hy ▸ hx)⟩
            · show Function.update s.isBusy i true j = true ↔ _
              by_cases hj : j = i
              · simp [hj]
              · rw [Function.update_of_ne hj, h.busy j]
                simp [hj]
          exact hlisted.onClientConnect hhome _

theorem regInv_init : RegInv regMachine.init where
  indices := by
    have hfree : indicesHeld regMachine.init .free = List.range (clientsPoolSize - 1) := by
      decide
    have hother : ∀ holder, holder ≠ .free → indicesHeld regMachine.init holder = [] := by
      intro holder hne
      cases holder with
      | free => exact absurd rfl hne
      | client b => rfl
      | command => rfl
    have hnone : Exclusive fun _ : IndexHolder => ([] : List ℕ) := .of_forall_nil fun _ => rfl
    refine ⟨hnone.giveAll List.nodup_range (fun _ _ _ => List.not_mem_nil) hfree hother, ?_⟩
    intro i
    refine ⟨?_, fun hi => ⟨.free, by rw [hfree]; exact List.mem_range.mpr hi⟩⟩
    rintro ⟨holder, hi⟩
    by_cases hholder : holder = .free
    · rw [hholder, hfree] at hi
      exact List.mem_range.mp hi
    · rw [hother holder hholder] at hi
      cases hi
  nodup := List.nodup_nil
  busy _ := ⟨nofun, nofun⟩
  reads _ := nofun
  last _ := rfl
  taken _ := nofun
  connects _ _ := nofun
  updates _ _ := nofun
  rings _ _ _ := nofun

theorem regInv_step {step : RegStep} (h : RegInv s) (hok : registrationOk s step)
    (ht : regMachine.step s step = some t) : RegInv t := by
  cases step with
  | dequeueClient a =>
      simp only [regMachine] at ht
      split at ht
      next hready =>
          split at ht
          next =>
              cases ht
              exact h
          next i ring hring =>
              cases ht
              exact h.dequeueClient hready.1 hready.2 ((Ring.dequeue_eq_some_iff _ _ _).mp hring)
      next => cases ht
  | createClient a found gotCommand room =>
      obtain ⟨hfound, hgot, hroom⟩ := hok
      simp only [regMachine, hfound, hgot, hroom] at ht
      split at ht
      next => cases ht
      next i htaken =>
          cases ht
          exact h.createClient htaken
  | readUpdates a =>
      simp only [regMachine] at ht
      split at ht
      next => cases ht
      next i hclient =>
          split at ht
          next hready =>
              split at ht
              next =>
                  cases ht
                  exact h
              next u ring hring =>
                  cases ht
                  exact h.readUpdates hclient hready.1 ((Ring.dequeue_eq_some_iff _ _ _).mp hring)
          next => cases ht
  | terminate a gotCommand room =>
      obtain ⟨htaken, howned⟩ := hok
      have hlast := h.last a
      simp only [regMachine] at ht
      split at ht
      next halive =>
          have hidx : ((s.setClient a { s.clients a with alive := false, taken := none }).clients
              a).gClientRingsetIdx = (s.clients a).gClientRingsetIdx := by
            rw [clients_regSetClient, if_pos rfl]
          rw [hidx] at ht
          rcases howned with hnone | ⟨hone, hgot, hroom⟩
          · rw [hnone] at hlast
            split at ht
            next =>
                cases ht
                refine h.terminate halive htaken none _ hnone ?_ ?_
                · rw [hlast]
                  rfl
                · intro j b hmem
                  cases List.mem_singleton.mp hmem
            next =>
                cases ht
                have hquiet := h.terminate halive htaken none [] hnone rfl
                  fun _ _ => List.not_mem_nil
                rw [List.append_nil] at hquiet
                exact hquiet
          · obtain ⟨i, hi⟩ := List.length_eq_one_iff.mp hone
            rw [hi] at hlast
            rw [hgot, hroom] at ht
            cases ht
            refine h.terminate halive htaken (some i) _ hi ?_ ?_
            · have hmem : i ∈ indicesHeld s (.client a) := by
                simp [indicesHeld, halive, htaken, hi]
              have hlt : i < clientsPoolSize - 1 := (h.indices.all i).mp ⟨_, hmem⟩
              have hindex : (RegCommand.disconnect i).index = some i :=
                if_pos (hlt.trans (by decide))
              rw [hlast]
              simp [hindex]
            · intro j b hmem
              cases List.mem_singleton.mp hmem
      next => cases ht
  | processCommand buffers =>
      simp only [regMachine] at ht
      split at ht
      next =>
          cases ht
          exact h
      next c rest hcommands =>
          cases ht
          have hnone : c.index = none := hok c (by rw [hcommands]; rfl)
          have htaken := h.takeCommand hcommands hnone
          cases c with
          | connect i a =>
              have hhome := h.connects i a (by rw [hcommands]; exact List.mem_cons_self)
              refine htaken.connect ?_ buffers
              refine hhome.imp id fun hmem => ?_
              simpa [indicesHeld, hcommands, RegCommand.index] using hmem
          | disconnect i =>
              unfold RegState.processCommand
              dsimp only
              have hlarge : clientsPoolSize ≤ i := by
                by_contra hlt
                have hsome : (RegCommand.disconnect i).index = some i :=
                  if_pos (Nat.lt_of_not_le hlt)
                rw [hsome] at hnone
                cases hnone
              rw [if_pos hlarge]
              exact htaken

/-! ## Updates -/

/-- The updates that were put on a ring are there, and nothing was freed. -/
structure UpdateInv (s : RegState) : Prop where
  kept : s.UpdatesKept
  fresh : ∀ m ∈ s.produced, m < s.buffers

theorem UpdateInv.putUpdate (h : UpdateInv s) (i a : ℕ) (kind : UpdateKind) :
    UpdateInv (s.putUpdate i a kind) := by
  have hnew : ∀ holder, s.buffers ∉ updatesHeld s holder := fun holder hmem =>
    lt_irrefl _ (h.fresh _ ((h.kept.all _).mp ⟨holder, hmem⟩))
  unfold RegState.putUpdate
  split
  next => exact ⟨h.kept, fun m hm => (h.fresh m hm).trans (Nat.lt_succ_self _)⟩
  next code ring hcode hqueued =>
      have hitems := Ring.items_of_queued (fun hc => hcode hc) hqueued
      set t : RegState := { s with
        clientRing := Function.update s.clientRing i ring
        buffers := s.buffers + 1
        produced := s.buffers :: s.produced } with ht
      have hself : updatesHeld t (.ring i) = updatesHeld s (.ring i) ++ [s.buffers] := by
        simp [updatesHeld, ht, hitems]
      have hother : ∀ holder, holder ≠ .ring i → updatesHeld t holder = updatesHeld s holder := by
        intro holder hne
        cases holder with
        | ring j =>
            have hj : j ≠ i := fun hj => hne (by rw [hj])
            simp [updatesHeld, ht, hj]
        | freed => rfl
      refine ⟨⟨?_, fun m => ?_⟩, fun m hm => ?_⟩
      · refine h.kept.toExclusive.give hnew (j := .ring i) ?_ fun holder hne => ?_
        · rw [hself]
          exact (List.perm_append_singleton _ _).subperm
        · rw [hother holder hne]
      · rw [List.mem_cons, ← h.kept.all m]
        constructor
        · rintro ⟨holder, hm⟩
          by_cases hne : holder = .ring i
          · rw [hne, hself] at hm
            rcases List.mem_append.mp hm with hm | hm
            · exact .inr ⟨_, hm⟩
            · exact .inl (List.mem_singleton.mp hm)
          · rw [hother holder hne] at hm
            exact .inr ⟨holder, hm⟩
        · rintro (rfl | ⟨holder, hm⟩)
          · exact ⟨.ring i, by rw [hself]; exact List.mem_append_right _ List.mem_cons_self⟩
          · by_cases hne : holder = .ring i
            · subst hne
              exact ⟨_, by rw [hself]; exact List.mem_append_left _ hm⟩
            · exact ⟨holder, by rw [hother holder hne]; exact hm⟩
      · rcases List.mem_cons.mp hm with rfl | hm
        · exact Nat.lt_succ_self _
        · exact (h.fresh m hm).trans (Nat.lt_succ_self _)

theorem UpdateInv.onClientConnect (h : UpdateInv s) (i a : ℕ) (kinds : List UpdateKind) :
    UpdateInv (s.onClientConnect i a kinds) := by
  unfold RegState.onClientConnect
  induction kinds generalizing s with
  | nil => exact h
  | cons kind kinds ih => exact ih (h.putUpdate i a kind)

/-- Only `on_client_connect` and `ipaugenblick_read_updates` touch the updates. -/
theorem UpdateInv.congr (h : UpdateInv s) (hring : t.clientRing = s.clientRing)
    (hfreed : t.freed = s.freed) (hproduced : t.produced = s.produced)
    (hbuffers : t.buffers = s.buffers) : UpdateInv t := by
  have hheld : updatesHeld t = updatesHeld s := by
    funext holder
    cases holder with
    | ring i => simp only [updatesHeld, hring]
    | freed => exact hfreed
  refine ⟨?_, ?_⟩
  · unfold RegState.UpdatesKept
    rw [hheld, hproduced]
    exact h.kept
  · rw [hproduced, hbuffers]
    exact h.fresh

theorem updateInv_step {step : RegStep} (h : UpdateInv s) (hok : unreadOk s step)
    (ht : regMachine.step s step = some t) : UpdateInv t := by
  cases step with
  | dequeueClient a =>
      simp only [regMachine] at ht
      split at ht
      next =>
          split at ht
          · cases ht
            exact h
          · cases ht
            exact h.congr rfl rfl rfl rfl
      next => cases ht
  | createClient a found gotCommand room =>
      simp only [regMachine] at ht
      split at ht
      next => cases ht
      next =>
          split at ht
          · cases ht
            exact h.congr rfl rfl rfl rfl
          · split at ht
            · cases ht
              exact h.congr rfl rfl rfl rfl
            · cases ht
              exact h.congr rfl rfl rfl rfl
  | readUpdates a =>
      simp only [regMachine] at ht
      split at ht
      next => cases ht
      next i hclient =>
          split at ht
          next =>
              split at ht
              next =>
                  cases ht
                  exact h
              next u ring hring =>
                  have hitems := (Ring.dequeue_eq_some_iff _ _ _).mp hring
                  rw [hok i hclient] at hitems
                  cases hitems
          next => cases ht
  | terminate a gotCommand room =>
      simp only [regMachine] at ht
      split at ht
      next =>
          split at ht
          · cases ht
            exact h.congr rfl rfl rfl rfl
          · cases ht
            exact h.congr rfl rfl rfl rfl
      next => cases ht
  | processCommand buffers =>
      simp only [regMachine] at ht
      split at ht
      next =>
          cases ht
          exact h
      next c rest hcommands =>
          cases ht
          have htaken : UpdateInv { s with commands := rest } := h.congr rfl rfl rfl rfl
          unfold RegState.processCommand
          cases c with
          | connect i a =>
              dsimp only
              split
              · exact htaken
              · split
                · exact htaken
                · have hlisted : UpdateInv { s with
                      commands := rest
                      clientsList := s.clientsList ++ [i]
                      isBusy := Function.update s.isBusy i true } := h.congr rfl rfl rfl rfl
                  exact hlisted.onClientConnect i a _
          | disconnect i =>
              dsimp only
              split
              · exact htaken
              · split
                · exact h.congr rfl rfl rfl rfl
                · exact htaken

end Registrations

theorem updateInv_init : UpdateInv regMachine.init := by
  have hnil : ∀ holder, updatesHeld regMachine.init holder = [] := by
    intro holder
    cases holder with
    | ring i => rfl
    | freed => rfl
  refine ⟨⟨.of_forall_nil hnil, fun m => ⟨?_, nofun⟩⟩, nofun⟩
  rintro ⟨holder, hm⟩
  rw [hnil holder] at hm
  cases hm

/-- **Client registrations.**  In every run in which creates that took an index succeed, clients
end with one index at most and no DISCONNECT_CLIENT is processed, every index but the last is free
or with one client, the busy clients are those of the list and a client reads its own updates.  If
no update is read, each is on the ring that it was put on. -/
theorem client_registrations_kept (s : RegState) :
    (regMachine.ReachableWhere registrationOk s → s.Kept (· < clientsPoolSize - 1)) ∧
      (regMachine.ReachableWhere unreadOk s → s.UpdatesKept) := by
  refine ⟨fun hreach => ?_, fun hreach => ?_⟩
  · have hinv : RegInv s := by
      refine regMachine.invariant_of_step regInv_init ?_ hreach
      intro s step t h hok hstep
      exact regInv_step h hok hstep
    exact hinv.toKept
  · have hinv : UpdateInv s := by
      refine regMachine.invariant_of_step updateInv_init ?_ hreach
      intro s step t h hok hstep
      exact updateInv_step h hok hstep
    exact hinv.kept

instance (s : RegState) : ∀ step, Decidable (registrationOk s step)
  | .createClient _ found gotCommand room =>
      inferInstanceAs (Decidable (found = true ∧ gotCommand = true ∧ room = true))
  | .terminate a gotCommand room =>
      inferInstanceAs (Decidable ((s.clients a).taken = none ∧
        ((s.clients a).owned = [] ∨
          (s.clients a).owned.length = 1 ∧ gotCommand = true ∧ room = true)))
  | .processCommand _ => inferInstanceAs (Decidable (∀ c ∈ s.commands.head?, c.index = none))
  | .dequeueClient _ => .isTrue trivial
  | .readUpdates _ => .isTrue trivial

instance (s : RegState) : ∀ step, Decidable (unreadOk s step)
  | .readUpdates a =>
      inferInstanceAs (Decidable (∀ i ∈ (s.clients a).clientRing, (s.clientRing i).items = []))
  | .createClient _ _ _ _ => .isTrue trivial
  | .terminate _ _ _ => .isTrue trivial
  | .processCommand _ => .isTrue trivial
  | .dequeueClient _ => .isTrue trivial

/-- Two processes register, and the service answers the one whose command came first. -/
def registerTwo : List RegStep :=
  [.dequeueClient 0, .dequeueClient 1, .createClient 1 true true true,
    .createClient 0 true true true, .processCommand 3]

/-- For the indices the answered process also reads its first update, before the other one is
answered and ends; for the updates the other one looks at its ring and finds nothing. -/
theorem client_registrations_kept_two :
    (∃ s, regMachine.ReachableWhere registrationOk s ∧ s.clientsList = [1, 0] ∧
      s.reads = [(⟨0, .newIfaces, 1⟩, 1)] ∧ s.commands = [.disconnect 0] ∧
      s.Kept (· < clientsPoolSize - 1)) ∧
    (∃ s, regMachine.ReachableWhere unreadOk s ∧ s.clientsList = [1] ∧ s.produced = [2, 1, 0] ∧
      s.UpdatesKept) := by
  constructor
  · have hrun : ((regMachine.restrict registrationOk).run
        (registerTwo ++ [.readUpdates 1, .processCommand 3, .terminate 0 true true])).map
        (fun s => (s.clientsList, s.reads, s.commands)) =
          some ([1, 0], [(⟨0, .newIfaces, 1⟩, 1)], [.disconnect 0]) := by decide +kernel
    obtain ⟨s, hs, hview⟩ := Option.map_eq_some_iff.mp hrun
    simp only [Prod.mk.injEq] at hview
    obtain ⟨hlist, hreads, hcommands⟩ := hview
    have hreach := Machine.reachableWhere_of_run _ hs
    exact ⟨s, hreach, hlist, hreads, hcommands, (client_registrations_kept s).1 hreach⟩
  · have hrun : ((regMachine.restrict unreadOk).run (registerTwo ++ [.readUpdates 0])).map
        (fun s => (s.clientsList, s.produced)) = some ([1], [2, 1, 0]) := by decide +kernel
    obtain ⟨s, hs, hview⟩ := Option.map_eq_some_iff.mp hrun
    obtain ⟨hlist, hproduced⟩ := Prod.mk.inj hview
    have hreach := Machine.reachableWhere_of_run _ hs
    exact ⟨s, hreach, hlist, hproduced, (client_registrations_kept s).2 hreach⟩

/-- A process registers, reads its first update and ends: its index and the update are gone. -/
theorem disconnected_index_is_lost : ∃ s, regMachine.run
    [.dequeueClient 0, .createClient 0 true true true, .processCommand 3, .readUpdates 0,
      .terminate 0 true true, .processCommand 0] = some s ∧
    (∀ holder, 0 ∉ indicesHeld s holder) ∧ 0 ∈ s.produced ∧ (∀ holder, 0 ∉ updatesHeld s holder) ∧
    ¬ (s.Kept (· < clientsPoolSize) ∧ s.UpdatesKept) := by
  refine ⟨_, rfl, fun holder => ?_, by decide, fun holder => ?_, fun h => ?_⟩
  · cases holder with
    | free => decide
    | client a =>
        cases a with
        | zero => decide
        | succ a => exact List.not_mem_nil
    | command => decide
  · cases holder with
    | ring i =>
        cases i with
        | zero => decide
        | succ i => exact List.not_mem_nil
    | freed => decide
  · obtain ⟨holder, hmem⟩ := (h.2.all 0).mpr (by decide)
    cases holder with
    | ring i =>
        cases i with
        | zero => exact absurd hmem (by decide)
        | succ i => exact List.not_mem_nil hmem
    | freed => exact absurd hmem (by decide)

end IpAugenblick
