import HazelcastClient.Interleaving.Machine
import Mathlib.Data.List.Chain

/-!
# Lifecycle of a client

`ClientConnectionManagerImpl` keeps the connections to the members and the state of
the client. The first connection makes the client initialized at once. A connection
that follows a loss of all connections posts a task, which sends the state of the
client to the cluster and then makes the client initialized. All sections under
`client_state_mutex_` are single steps; sending the state is not one of them.

The task compares its cluster id with the current one before and after it has sent the
state, and nothing else. `Undisturbed` is what it leaves out: the client is still
connected, and no other task has made it initialized.
-/

namespace HazelcastClient.Network

open Interleaving List Function

inductive ClientState where
  | initial
  | connectedToCluster
  | initializedOnCluster
  | disconnectedFromCluster
  deriving DecidableEq

inductive LifecycleEvent where
  | clientConnected
  | clientDisconnected
  deriving DecidableEq

/-- Members have uuids `U`, clusters ids `C`; `none` is the nil id. Connections have
numbers. -/
structure Manager (U C : Type) where
  clientState : ClientState := .initial
  clusterId : Option C := none
  establishedInitialClusterConnection : Bool := false
  activeConnections : List (U × ℕ) := []
  /-- The member that a connection has been authenticated with. -/
  remoteUuid : ℕ → Option U := fun _ => none
  fired : List LifecycleEvent := []

namespace Manager

variable {U C : Type} [DecidableEq U]

def onConnectionClose (s : Manager U C) (connection : ℕ) : Manager U C :=
  match s.remoteUuid connection with
  | none => s
  | some uuid =>
    if s.activeConnections.lookup uuid = some connection then
      let active := s.activeConnections.filter fun entry => entry.1 ≠ uuid
      if active.isEmpty then
        { s with
          activeConnections := active
          fired :=
            if s.clientState = .initializedOnCluster then s.fired ++ [.clientDisconnected]
            else s.fired
          clientState := .disconnectedFromCluster }
      else { s with activeConnections := active }
    else s

variable [DecidableEq C]

/-- The locked section of `on_authenticated`, and whether it posts the task. When the
cluster has changed, `on_cluster_restart` clears the member list, which closes the
connections `dropped`. -/
def onAuthenticated (s : Manager U C) (connection : ℕ) (memberUuid : U) (newClusterId : Option C)
    (dropped : List ℕ) : Manager U C × Bool :=
  let s := { s with remoteUuid := update s.remoteUuid connection (some memberUuid) }
  if (s.activeConnections.lookup memberUuid).isSome then (s, false)
  else
    let s :=
      if s.clusterId ≠ none ∧ newClusterId ≠ s.clusterId then dropped.foldl onConnectionClose s
      else s
    let active := (memberUuid, connection) :: s.activeConnections
    if s.activeConnections.isEmpty then
      if s.establishedInitialClusterConnection then
        ({ s with
            activeConnections := active
            clusterId := newClusterId
            clientState := .connectedToCluster }, true)
      else
        ({ s with
            activeConnections := active
            clusterId := newClusterId
            establishedInitialClusterConnection := true
            clientState := .initializedOnCluster
            fired := s.fired ++ [.clientConnected] }, false)
    else ({ s with activeConnections := active }, false)

/-- The second locked section of `initialize_client_on_cluster`. -/
def onStateSent (s : Manager U C) (target : Option C) : Manager U C :=
  if target = s.clusterId then
    { s with
      clientState := .initializedOnCluster
      fired := s.fired ++ [.clientConnected] }
  else s

end Manager

/-- The places of `initialize_client_on_cluster`: the first locked section, the remote
call, the second locked section, and the handler of an exception. -/
inductive TaskPlace where
  | begin
  | sendState
  | stateSent
  | failed
  deriving DecidableEq

inductive Frame (U C : Type) where
  | authenticated (connection : ℕ) (memberUuid : U) (clusterId : Option C)
  | checkAlive (connection : ℕ)
  | connectionClose (connection : ℕ)
  | task (target : Option C) (place : TaskPlace)
  deriving DecidableEq

inductive Choice (U C : Type) where
  | go
  | dropping (connections : List ℕ)
  | dead
  | notRunning
  | fails
  | authenticated (connection : ℕ) (memberUuid : U) (clusterId : Option C)
  | connectionClose (connection : ℕ)
  deriving DecidableEq

def Choice.dropped {U C : Type} : Choice U C → List ℕ
  | .dropping connections => connections
  | _ => []

section Steps

variable {U C : Type} [DecidableEq U] [DecidableEq C]

/-- One step of `initialize_client_on_cluster`. -/
def fireTask (s : Manager U C) (choice : Choice U C) (target : Option C) :
    TaskPlace → Effect (Manager U C) Unit (Frame U C) Unit
  | .begin =>
    if choice = .notRunning ∨ target ≠ s.clusterId then { shared := s }
    else { shared := s, next := [.task target .sendState] }
  | .sendState =>
    { shared := s, next := [.task target (if choice = .fails then .failed else .stateSent)] }
  | .stateSent => { shared := s.onStateSent target }
  | .failed =>
    { shared := s
      spawned := if s.clusterId = target then [⟨(), [.task target .begin]⟩] else [] }

def fire (s : Manager U C) (choice : Choice U C) :
    Frame U C → Effect (Manager U C) Unit (Frame U C) Unit
  | .authenticated connection memberUuid clusterId =>
    let (s', post) := s.onAuthenticated connection memberUuid clusterId choice.dropped
    { shared := s'
      next := [.checkAlive connection]
      spawned := if post then [⟨(), [.task clusterId .begin]⟩] else [] }
  | .checkAlive connection =>
    { shared := s, next := if choice = .dead then [.connectionClose connection] else [] }
  | .connectionClose connection => { shared := s.onConnectionClose connection }
  | .task target place => fireTask s choice target place

/-- A connection is authenticated once. Any connection can be closed at any time. -/
def outside (s : Manager U C) : Choice U C → Option (Effect (Manager U C) Unit (Frame U C) Unit)
  | .authenticated connection memberUuid clusterId =>
    if s.remoteUuid connection = none then
      some {
        shared := s
        spawned := [⟨(), [.authenticated connection memberUuid clusterId]⟩] }
    else none
  | .connectionClose connection =>
    some { shared := s, spawned := [⟨(), [.connectionClose connection]⟩] }
  | _ => none

def manager : Machine (Manager U C) Unit (Frame U C) (Choice U C) Unit where
  fire := fun s _ choice f => some (fire s choice f)
  outside := outside

def start : Config (Manager U C) Unit (Frame U C) := ⟨{}, []⟩

/-- A task that has sent the state to the current cluster finds the client connected and
not yet initialized. -/
def Undisturbed (c : Config (Manager U C) Unit (Frame U C)) : Move (Frame U C) (Choice U C) → Prop
  | .frame (.task target .stateSent) _ =>
    target = c.shared.clusterId → c.shared.clientState = .connectedToCluster
  | _ => True

instance (c : Config (Manager U C) Unit (Frame U C)) (mv : Move (Frame U C) (Choice U C)) :
    Decidable (Undisturbed c mv) := by
  unfold Undisturbed
  split <;> infer_instance

end Steps

/-- The events alternate, and the first one is `CLIENT_CONNECTED`: none repeats the one
before it, with a disconnection imagined in front. -/
def Alternates (fired : List LifecycleEvent) : Prop :=
  List.IsChain (· ≠ ·) (.clientDisconnected :: fired)

/-- The last event says whether the client is initialized, and the client is connected or
initialized while it has a connection. -/
structure Consistent {U C : Type} (s : Manager U C) : Prop where
  alternates : Alternates s.fired
  last : s.fired.getLastD .clientDisconnected = .clientConnected ↔
    s.clientState = .initializedOnCluster
  connected : s.clientState = .initializedOnCluster ∨ s.clientState = .connectedToCluster ↔
    s.activeConnections ≠ []

variable {fired : List LifecycleEvent}

theorem Alternates.append {e : LifecycleEvent} (h : Alternates fired)
    (hlast : fired.getLastD .clientDisconnected ≠ e) :
    Alternates (fired ++ [e]) := by
  unfold Alternates
  rw [← cons_append, isChain_append]
  refine ⟨h, isChain_singleton e, ?_⟩
  intro x hx y hy
  have hx' : fired.getLastD .clientDisconnected = x := by
    simpa [List.getLast?_cons, getLastD_eq_getLast?] using hx
  have hy' : e = y := by simpa using hy
  rw [← hx', ← hy']
  exact hlast

theorem not_alternates_append :
    ¬ Alternates (fired ++ [fired.getLastD .clientDisconnected]) := by
  unfold Alternates
  rw [← cons_append, isChain_append]
  rintro ⟨-, -, h⟩
  exact h (fired.getLastD .clientDisconnected)
    (by simp [List.getLast?_cons, getLastD_eq_getLast?]) _ (by simp) rfl

namespace Consistent

variable {U C : Type} [DecidableEq U] {s : Manager U C}

theorem onConnectionClose (h : Consistent s) (connection : ℕ) :
    Consistent (s.onConnectionClose connection) := by
  unfold Manager.onConnectionClose
  split
  · exact h
  · split
    · rename_i hlookup
      simp only
      split
      · rename_i hempty
        have hnil : _ = [] := isEmpty_iff.mp hempty
        by_cases hstate : s.clientState = .initializedOnCluster
        · have hlast : s.fired.getLastD .clientDisconnected = .clientConnected :=
            h.last.mpr hstate
          rw [if_pos hstate]
          exact ⟨h.alternates.append (by rw [hlast]; decide), by simp,
            iff_of_false (by simp) (not_not_intro hnil)⟩
        · rw [if_neg hstate]
          exact ⟨h.alternates, iff_of_false (mt h.last.mp hstate) (by simp),
            iff_of_false (by simp) (not_not_intro hnil)⟩
      · rename_i hne
        have hactive : s.activeConnections ≠ [] := fun hnil => by
          rw [hnil] at hlookup
          cases hlookup
        exact ⟨h.alternates, h.last,
          iff_of_true (h.connected.mpr hactive) fun hnil => hne (isEmpty_iff.mpr hnil)⟩
    · exact h

theorem onConnectionCloseAll (connections : List ℕ) (h : Consistent s) :
    Consistent (connections.foldl Manager.onConnectionClose s) := by
  induction connections generalizing s with
  | nil => exact h
  | cons connection connections ih => exact ih (h.onConnectionClose connection)

omit [DecidableEq U] in
theorem last_ne (h : Consistent s) (hstate : s.clientState ≠ .initializedOnCluster) :
    s.fired.getLastD .clientDisconnected ≠ .clientConnected :=
  mt h.last.mp hstate

variable [DecidableEq C]

theorem onAuthenticated (h : Consistent s) (connection : ℕ) (memberUuid : U)
    (newClusterId : Option C) (dropped : List ℕ) :
    Consistent (s.onAuthenticated connection memberUuid newClusterId dropped).1 := by
  unfold Manager.onAuthenticated
  simp only
  split
  · exact ⟨h.alternates, h.last, h.connected⟩
  · generalize hs : (if s.clusterId ≠ none ∧ newClusterId ≠ s.clusterId then
      dropped.foldl Manager.onConnectionClose
        { s with remoteUuid := update s.remoteUuid connection (some memberUuid) }
      else { s with remoteUuid := update s.remoteUuid connection (some memberUuid) }) = s'
    have hs' : Consistent s' := by
      have hremote : Consistent
          { s with remoteUuid := update s.remoteUuid connection (some memberUuid) } :=
        ⟨h.alternates, h.last, h.connected⟩
      rw [← hs]
      split
      · exact hremote.onConnectionCloseAll dropped
      · exact hremote
    split
    · rename_i hempty
      have hnot : s'.clientState ≠ .initializedOnCluster := fun hstate =>
        hs'.connected.mp (.inl hstate) (isEmpty_iff.mp hempty)
      split
      · exact ⟨hs'.alternates, iff_of_false (hs'.last_ne hnot) (by simp), by simp⟩
      · exact ⟨hs'.alternates.append (hs'.last_ne hnot), by simp, by simp⟩
    · rename_i hne
      have hactive : s'.activeConnections ≠ [] := fun hnil => hne (isEmpty_iff.mpr hnil)
      exact ⟨hs'.alternates, hs'.last,
        iff_of_true (hs'.connected.mpr hactive) (cons_ne_nil _ _)⟩

omit [DecidableEq U] in
/-- The second section of a task keeps the state consistent exactly when it finds what it
does not check: otherwise it repeats the last event, or makes a client without connections
initialized. -/
theorem onStateSent_iff (h : Consistent s) (target : Option C) :
    Consistent (s.onStateSent target) ↔
      (target = s.clusterId → s.clientState = .connectedToCluster) := by
  unfold Manager.onStateSent
  split
  · rename_i htarget
    constructor
    · intro hafter _
      by_contra hstate
      by_cases hinit : s.clientState = .initializedOnCluster
      · have hrepeat := hafter.alternates
        rw [← h.last.mpr hinit] at hrepeat
        exact not_alternates_append hrepeat
      · exact hafter.connected.mp (.inl rfl)
          (not_not.mp (mt h.connected.mpr (not_or.mpr ⟨hinit, hstate⟩)))
    · intro hstate
      have hconnected := hstate htarget
      have hnot : s.clientState ≠ .initializedOnCluster := by rw [hconnected]; decide
      exact ⟨h.alternates.append (h.last_ne hnot), by simp,
        iff_of_true (.inl rfl) (h.connected.mp (.inr hconnected))⟩
  · rename_i htarget
    exact iff_of_true h fun heq => absurd heq htarget

end Consistent

section Runs

variable {U C : Type} [DecidableEq U] [DecidableEq C] {c : Config (Manager U C) Unit (Frame U C)}

theorem Consistent.fire {f : Frame U C} {choice : Choice U C} (h : Consistent c.shared)
    (hok : Undisturbed c (.frame f choice)) :
    Consistent (Network.fire c.shared choice f).shared := by
  cases f with
  | authenticated connection memberUuid clusterId =>
    exact h.onAuthenticated connection memberUuid clusterId choice.dropped
  | checkAlive connection => exact h
  | connectionClose connection => exact h.onConnectionClose connection
  | task target place =>
    cases place with
    | begin =>
      simp only [Network.fire, fireTask]
      split <;> exact h
    | sendState | failed => exact h
    | stateSent => exact (h.onStateSent_iff target).mpr hok

theorem Consistent.run {events : List Unit} (h : Run manager Undisturbed start events c) :
    Consistent c.shared := by
  refine h.invariant (P := fun _ c => Consistent c.shared) ?_ ?_
  · exact ⟨isChain_singleton _, by simp [start], by simp [start]⟩
  · intro es c₁ mv ev c₂ _ hc hok hstep
    rcases hstep.inversion with
      ⟨f, choice, others, threads, e, rfl, he, hshared, -⟩ | ⟨choice, e, rfl, he, hshared, -⟩
    · obtain rfl : Network.fire c₁.shared choice f = e := Option.some.inj he
      rw [hshared]
      exact hc.fire hok
    · rw [hshared]
      cases choice with
      | authenticated connection memberUuid clusterId =>
        simp only [manager, outside] at he
        split at he
        · exact (Option.some.inj he) ▸ hc
        · cases he
      | connectionClose connection => exact (Option.some.inj he) ▸ hc
      | _ => cases he

/-- In every run in which the tasks find the client connected and not initialized when
they have sent the state, the events alternate, and an initialized client has a
connection. -/
theorem lifecycle_alternates {c : Config (Manager U C) Unit (Frame U C)} {events : List Unit}
    (h : Run manager Undisturbed start events c) :
    Alternates c.shared.fired ∧
      (c.shared.clientState = .initializedOnCluster → c.shared.activeConnections ≠ []) := by
  have hc := Consistent.run h
  exact ⟨hc.alternates, fun hstate => hc.connected.mp (.inl hstate)⟩

end Runs

/-- The client loses its only connection, and another one while the task sends the state:
the task makes it initialized without a connection. The next connection posts a second
task, which fires `CLIENT_CONNECTED` again. -/
def lostPicks : List (Pick (Choice ℕ ℕ)) :=
  [.outside (.authenticated 1 5 (some 9)), .thread 0 .go, .outside (.connectionClose 1),
    .thread 1 .go, .outside (.authenticated 2 5 (some 9)), .thread 2 .go, .thread 3 .go,
    .thread 3 .go, .outside (.connectionClose 2), .thread 4 .go, .thread 3 .go]

def againPicks : List (Pick (Choice ℕ ℕ)) :=
  lostPicks ++ [.outside (.authenticated 3 5 (some 9)), .thread 5 .go, .thread 6 .go,
    .thread 6 .go, .thread 6 .go]

theorem lifecycle_disturbed :
    (∃ events c, Run (manager (U := ℕ) (C := ℕ)) Always start events c ∧
      c.shared.clientState = .initializedOnCluster ∧ c.shared.activeConnections = []) ∧
    ∃ events c, Run (manager (U := ℕ) (C := ℕ)) Always start events c ∧
      c.shared.fired =
        [.clientConnected, .clientDisconnected, .clientConnected, .clientConnected] := by
  constructor
  · have hexec : ∃ events c, (manager (U := ℕ) (C := ℕ)).execAll (fun _ _ => true) start
        lostPicks = some (events, c) ∧ c.shared.clientState = .initializedOnCluster ∧
        c.shared.activeConnections = [] := ⟨_, _, rfl, rfl, rfl⟩
    obtain ⟨events, c, hexec, h⟩ := hexec
    exact ⟨events, c, (Run.of_execAll hexec).always, h⟩
  · have hexec : ∃ events c, (manager (U := ℕ) (C := ℕ)).execAll (fun _ _ => true) start
        againPicks = some (events, c) ∧ c.shared.fired =
        [.clientConnected, .clientDisconnected, .clientConnected, .clientConnected] :=
      ⟨_, _, rfl, rfl⟩
    obtain ⟨events, c, hexec, h⟩ := hexec
    exact ⟨events, c, (Run.of_execAll hexec).always, h⟩

/-- A lost connection is replaced, the first attempt to send the state fails, and the
second one makes the client initialized. -/
theorem lifecycle_alternates_retried :
    ∃ events c, Run (manager (U := ℕ) (C := ℕ)) Undisturbed start events c ∧
      c.shared.fired = [.clientConnected, .clientDisconnected, .clientConnected] ∧
      Alternates c.shared.fired ∧ c.shared.activeConnections ≠ [] := by
  have hexec : ∃ events c, (manager (U := ℕ) (C := ℕ)).execAll
      (fun c mv => decide (Undisturbed c mv)) start
      [.outside (.authenticated 1 5 (some 9)), .thread 0 .go, .outside (.connectionClose 1),
        .thread 1 .go, .outside (.authenticated 2 5 (some 9)), .thread 2 .go, .thread 3 .go,
        .thread 3 .fails, .thread 3 .go, .thread 4 .go, .thread 4 .go, .thread 4 .go] =
        some (events, c) ∧ c.shared.clientState = .initializedOnCluster ∧
      c.shared.fired = [.clientConnected, .clientDisconnected, .clientConnected] :=
    ⟨_, _, rfl, rfl, rfl⟩
  obtain ⟨events, c, hexec, hstate, hfired⟩ := hexec
  have hrun : Run (manager (U := ℕ) (C := ℕ)) Undisturbed start events c :=
    (Run.of_execAll hexec).mono fun _ _ hok => of_decide_eq_true hok
  obtain ⟨halternates, hconnected⟩ := lifecycle_alternates hrun
  exact ⟨events, c, hrun, hfired, halternates, hconnected hstate⟩

end HazelcastClient.Network
