import HazelcastClient.Interleaving.Machine
import Mathlib.Data.List.AList

/-!
# Listeners of the user

A listener of the user is to be registered on every connection. `register_listener` adds it
to the connections there are, and the callback for a new connection adds all listeners to
this connection. Both are tasks of one executor with a single thread, which waits for the
answer to each request.

The two paths treat a failure differently. The caller of `register_listener` gets an
exception when the listener can not be added to a connection that is alive. A listener that
can not be added to a new connection is left out, with a warning in the log.
-/

namespace HazelcastClient.Spi.ListenerService

open Interleaving List Option AList

/-- What is kept for a listener on a connection. -/
structure ConnectionRegistration where
  serverRegistrationId : ℕ
  callId : ℤ
  deriving DecidableEq

abbrev Entries := AList fun _ : ℕ => ConnectionRegistration

abbrev Registrations := AList fun _ : ℕ => Entries

inductive Task where
  | registerListener (id : ℕ)
  | deregisterListener (id : ℕ)
  | connectionAdded (connection : ℕ)
  | connectionRemoved (connection : ℕ)
  deriving DecidableEq

/-- What follows `deregister_listener_internal`: the exception of `register_listener`, or
the result of `deregister_listener`. -/
inductive After where
  | threw (e : String)
  | returned

/-- The places of the callbacks and of the tasks. A loop has the list of what is left, and a
request the answer to which is awaited has a place of its own. -/
inductive Frame where
  | post (t : Task)
  | registerListenerInternal (id : ℕ)
  | addTo (id : ℕ) (rest : List ℕ)
  | addRequest (id connection : ℕ) (rest : List ℕ)
  | deregisterListenerInternal (id : ℕ) (after : After)
  | removeFrom (id : ℕ) (rest : List (ℕ × ConnectionRegistration)) (successful : Bool)
      (after : After)
  | removeRequest (id connection : ℕ) (entry : ConnectionRegistration)
      (rest : List (ℕ × ConnectionRegistration)) (successful : Bool) (after : After)
  | connectionAddedInternal (connection : ℕ)
  | addNew (connection : ℕ) (rest : List ℕ)
  | addNewRequest (connection id : ℕ) (rest : List ℕ)
  | connectionRemovedInternal (connection : ℕ)

/-- The order in which a map is read, the outcome of a request, and what the environment
does. -/
inductive Choice where
  | order (l : List ℕ)
  | added (entry : ConnectionRegistration)
  | removed
  | failed (e : String)
  | go
  | registerListener
  | deregisterListener (id : ℕ)
  | authenticated (connection : ℕ)
  | died (connection : ℕ)
  | closed (connection : ℕ)
  | run

/-- The exception `hazelcast_`. -/
structure HazelcastException where
  source : String
  message : String
  deriving DecidableEq

inductive Event where
  | registered (id : ℕ)
  | threw (id : ℕ) (e : HazelcastException)
  | deregistered (id : ℕ) (successful : Bool)
  | unsubscribed (connection : ℕ) (entry : ConnectionRegistration)
  | warned (id connection : ℕ) (message : String)
  deriving DecidableEq

structure State where
  activeConnections : List ℕ := []
  /-- connections that are not alive any more -/
  dead : List ℕ := []
  used : List ℕ := []
  /-- `client_state_mutex_` -/
  locked : Bool := false
  queue : List Task := []
  /-- the executor runs a task -/
  busy : Bool := false
  issued : ℕ := 0
  registrations : Registrations := ∅

namespace Registrations

def containsKey (m : Registrations) (id connection : ℕ) : Bool :=
  (m.lookup id).any fun entries => (entries.lookup connection).isSome

def modify (m : Registrations) (id : ℕ) (g : Entries → Entries) : Registrations :=
  match m.lookup id with
  | none => m
  | some entries => m.insert id (g entries)

def put (m : Registrations) (id connection : ℕ) (entry : ConnectionRegistration) : Registrations :=
  m.modify id fun entries => entries.insert connection entry

def removeConnection (m : Registrations) (connection : ℕ) : Registrations :=
  m.keys.foldl (fun m id => modify m id fun entries => entries.erase connection) m

end Registrations

namespace State

def alive (s : State) (connection : ℕ) : Bool := !s.dead.contains connection

def finished (s : State) : State := { s with busy := false }

end State

def cannotBeAdded (e : String) : HazelcastException :=
  ⟨"ClientListenerService::RegisterListenerTask::call", "Listener can not be added " ++ e⟩

def cannotBeAddedToNew (id connection : ℕ) (e : String) : String :=
  "Listener with pointer " ++ toString id ++ " can not be added to a new connection: " ++
    toString connection ++ ", reason: " ++ e

/-- The end of `deregister_listener_internal` and of the task that called it. -/
def After.finish (s : State) (id : ℕ) (successful : Bool) : After → Effect State Unit Frame Event
  | threw e => { shared := s.finished, event := some (.threw id (cannotBeAdded e)) }
  | returned => { shared := s.finished, event := some (.deregistered id successful) }

def Task.frame : Task → Frame
  | registerListener id => .registerListenerInternal id
  | deregisterListener id => .deregisterListenerInternal id .returned
  | connectionAdded connection => .connectionAddedInternal connection
  | connectionRemoved connection => .connectionRemovedInternal connection

def copy (entries : Entries) (order : List ℕ) : List (ℕ × ConnectionRegistration) :=
  order.filterMap fun connection => (entries.lookup connection).map fun entry => (connection, entry)

namespace State

/-- `register_listener_internal` and its loop over the active connections. -/
def fireRegister (s : State) (choice : Choice) : Frame → Option (Effect State Unit Frame Event)
  | .registerListenerInternal id =>
    match choice with
    | .order l =>
      if l.isPerm s.activeConnections then
        some { shared := { s with registrations := s.registrations.insert id ∅ }
               next := [.addTo id l] }
      else none
    | _ => none
  | .addTo id [] => some { shared := s.finished, event := some (.registered id) }
  | .addTo id (connection :: rest) =>
    some { shared := s
           next := [if s.registrations.containsKey id connection then .addTo id rest
             else .addRequest id connection rest] }
  | .addRequest id connection rest =>
    match choice with
    | .added entry =>
      some { shared := { s with registrations := s.registrations.put id connection entry }
             next := [.addTo id rest] }
    | .failed e =>
      some { shared := s
             next := [if s.alive connection then .deregisterListenerInternal id (.threw e)
               else .addTo id rest] }
    | _ => none
  | _ => none

/-- `deregister_listener_internal`; it goes through a copy of the entries. -/
def fireDeregister (s : State) (choice : Choice) : Frame → Option (Effect State Unit Frame Event)
  | .deregisterListenerInternal id after =>
    match s.registrations.lookup id with
    | none => some (after.finish s id false)
    | some entries =>
      match choice with
      | .order l =>
        if l.isPerm entries.keys then
          some { shared := s, next := [.removeFrom id (copy entries l) true after] }
        else none
      | _ => none
  | .removeFrom id [] successful after =>
    some (after.finish
      (if successful then { s with registrations := s.registrations.erase id } else s)
      id successful)
  | .removeFrom id ((connection, entry) :: rest) successful after =>
    some { shared := s, next := [.removeRequest id connection entry rest successful after] }
  | .removeRequest id connection entry rest successful after =>
    match choice with
    | .removed =>
      some { shared := s, next := [.removeFrom id rest successful after]
             event := some (.unsubscribed connection entry) }
    | .failed _ =>
      some { shared := s
             next := [.removeFrom id rest (successful && !s.alive connection) after] }
    | _ => none
  | _ => none

/-- `connection_added_internal` with its loop over the registrations, and
`connection_removed_internal`. -/
def fireConnection (s : State) (choice : Choice) : Frame → Option (Effect State Unit Frame Event)
  | .connectionAddedInternal connection =>
    match choice with
    | .order l =>
      if l.isPerm s.registrations.keys then
        some { shared := s, next := [.addNew connection l] }
      else none
    | _ => none
  | .addNew _ [] => some { shared := s.finished }
  | .addNew connection (id :: rest) =>
    some { shared := s
           next := [if s.registrations.containsKey id connection then .addNew connection rest
             else .addNewRequest connection id rest] }
  | .addNewRequest connection id rest =>
    match choice with
    | .added entry =>
      some { shared := { s with registrations := s.registrations.put id connection entry }
             next := [.addNew connection rest] }
    | .failed e =>
      some { shared := s, next := [.addNew connection rest]
             event := some (.warned id connection (cannotBeAddedToNew id connection e)) }
    | _ => none
  | .connectionRemovedInternal connection =>
    some { shared := { s with
             registrations := s.registrations.removeConnection connection
             busy := false } }
  | _ => none

def fire (s : State) (choice : Choice) (f : Frame) : Option (Effect State Unit Frame Event) :=
  match f with
  | .post t => some { shared := { s with queue := s.queue ++ [t], locked := false } }
  | .registerListenerInternal _ | .addTo _ _ | .addRequest _ _ _ => s.fireRegister choice f
  | .deregisterListenerInternal _ _ | .removeFrom _ _ _ _ | .removeRequest _ _ _ _ _ _ =>
    s.fireDeregister choice f
  | .connectionAddedInternal _ | .addNew _ _ | .addNewRequest _ _ _
  | .connectionRemovedInternal _ => s.fireConnection choice f

/-- Calls of the user, connections that come and go with their callbacks, and the executor
that takes its next task. -/
def outside (s : State) (choice : Choice) : Option (Effect State Unit Frame Event) :=
  match choice with
  | .registerListener =>
    some { shared := { s with
             queue := s.queue ++ [.registerListener s.issued]
             issued := s.issued + 1 } }
  | .deregisterListener id =>
    some { shared := { s with queue := s.queue ++ [.deregisterListener id] } }
  | .authenticated connection =>
    if s.locked || s.used.contains connection then none
    else some { shared := { s with
                  activeConnections := connection :: s.activeConnections
                  used := connection :: s.used
                  locked := true }
                spawned := [⟨(), [.post (.connectionAdded connection)]⟩] }
  | .died connection => some { shared := { s with dead := connection :: s.dead } }
  | .closed connection =>
    if s.locked || s.alive connection || !s.activeConnections.contains connection then none
    else some { shared := { s with
                  activeConnections := s.activeConnections.erase connection
                  locked := true }
                spawned := [⟨(), [.post (.connectionRemoved connection)]⟩] }
  | .run =>
    match s.queue with
    | [] => none
    | t :: queue =>
      if s.busy then none
      else some { shared := { s with queue := queue, busy := true }
                  spawned := [⟨(), [t.frame]⟩] }
  | _ => none

end State

def machine : Machine State Unit Frame Choice Event where
  fire s _ choice f := s.fire choice f
  outside s choice := s.outside choice

/-! ## What becomes of the entries -/

namespace Registrations

variable {m : Registrations} {id id' c c' : ℕ} {entry : ConnectionRegistration}

theorem mem_modify (g : Entries → Entries) : id' ∈ m.modify id g ↔ id' ∈ m := by
  unfold modify
  split
  · rfl
  · rename_i entries hentries
    have hmem : id ∈ m := by
      rw [← lookup_isSome, hentries]
      rfl
    rw [mem_insert]
    constructor
    · rintro (rfl | h)
      · exact hmem
      · exact h
    · exact .inr

theorem containsKey_modify {g : Entries → Entries}
    (hkeeps : ∀ entries : Entries, (entries.lookup c).isSome = true →
      ((g entries).lookup c).isSome = true)
    (h : m.containsKey id' c = true) : (m.modify id g).containsKey id' c = true := by
  unfold modify
  split
  · exact h
  · rename_i entries hentries
    unfold containsKey
    by_cases hid : id' = id
    · rw [hid, lookup_insert]
      rw [containsKey, hid, hentries] at h
      exact hkeeps entries h
    · rw [lookup_insert_ne hid]
      exact h

theorem containsKey_put (h : m.containsKey id' c' = true) :
    (m.put id c entry).containsKey id' c' = true := by
  refine containsKey_modify (fun entries hentries => ?_) h
  by_cases hc : c' = c
  · rw [hc, lookup_insert]
    rfl
  · rwa [lookup_insert_ne hc]

theorem containsKey_put_self (h : id ∈ m) :
    (m.put id c entry).containsKey id c = true := by
  obtain ⟨entries, hentries⟩ := isSome_iff_exists.mp (lookup_isSome.mpr h)
  simp [put, modify, hentries, containsKey]

theorem containsKey_removeConnection (hne : c' ≠ c) (h : m.containsKey id' c' = true) :
    (m.removeConnection c).containsKey id' c' = true := by
  unfold removeConnection
  generalize m.keys = ids
  induction ids generalizing m with
  | nil => exact h
  | cons id ids ih =>
    refine ih (containsKey_modify (fun entries hentries => ?_) h)
    rwa [lookup_erase_ne hne]

theorem mem_removeConnection : id ∈ m.removeConnection c ↔ id ∈ m := by
  unfold removeConnection
  generalize m.keys = ids
  induction ids generalizing m with
  | nil => rfl
  | cons id' ids ih => exact ih.trans (mem_modify _)

end Registrations

/-! ## Connections that a listener has to be added to -/

inductive Fired (s : State) : Frame → Effect State Unit Frame Event → Prop
  | begun (id : ℕ) {l : List ℕ} (hl : l.Perm s.activeConnections) :
      Fired s (.registerListenerInternal id)
        { shared := { s with registrations := s.registrations.insert id ∅ }, next := [.addTo id l] }
  | registered (id : ℕ) :
      Fired s (.addTo id []) { shared := s.finished, event := some (.registered id) }
  | contained (id c : ℕ) (rest : List ℕ) (hentry : s.registrations.containsKey id c = true) :
      Fired s (.addTo id (c :: rest)) { shared := s, next := [.addTo id rest] }
  | asked (id c : ℕ) (rest : List ℕ) :
      Fired s (.addTo id (c :: rest)) { shared := s, next := [.addRequest id c rest] }
  | added (id c : ℕ) (rest : List ℕ) (entry : ConnectionRegistration) :
      Fired s (.addRequest id c rest)
        { shared := { s with registrations := s.registrations.put id c entry }
          next := [.addTo id rest] }
  | refused (id c : ℕ) (rest : List ℕ) (e : String) :
      Fired s (.addRequest id c rest)
        { shared := s, next := [.deregisterListenerInternal id (.threw e)] }
  | skipped (id c : ℕ) (rest : List ℕ) (hdead : ¬ s.alive c = true) :
      Fired s (.addRequest id c rest) { shared := s, next := [.addTo id rest] }
  | unknown (id : ℕ) (after : After) :
      Fired s (.deregisterListenerInternal id after) (after.finish s id false)
  | removing (id : ℕ) (after : After) (rest : List (ℕ × ConnectionRegistration)) :
      Fired s (.deregisterListenerInternal id after)
        { shared := s, next := [.removeFrom id rest true after] }
  | removed (id : ℕ) (after : After) :
      Fired s (.removeFrom id [] true after)
        (after.finish { s with registrations := s.registrations.erase id } id true)
  | notRemoved (id : ℕ) (after : After) :
      Fired s (.removeFrom id [] false after) (after.finish s id false)
  | asksRemoval (id c : ℕ) (entry : ConnectionRegistration)
      (rest : List (ℕ × ConnectionRegistration)) (successful : Bool) (after : After) :
      Fired s (.removeFrom id ((c, entry) :: rest) successful after)
        { shared := s, next := [.removeRequest id c entry rest successful after] }
  | answeredRemoval (id c : ℕ) (entry : ConnectionRegistration)
      (rest : List (ℕ × ConnectionRegistration)) (successful successful' : Bool) (after : After)
      (ev : Option Event) :
      Fired s (.removeRequest id c entry rest successful after)
        { shared := s, next := [.removeFrom id rest successful' after], event := ev }
  | begunNew (c : ℕ) {l : List ℕ} (hl : l.Perm s.registrations.keys) :
      Fired s (.connectionAddedInternal c) { shared := s, next := [.addNew c l] }
  | registeredNew (c : ℕ) : Fired s (.addNew c []) { shared := s.finished }
  | containedNew (c id : ℕ) (rest : List ℕ) (hentry : s.registrations.containsKey id c = true) :
      Fired s (.addNew c (id :: rest)) { shared := s, next := [.addNew c rest] }
  | askedNew (c id : ℕ) (rest : List ℕ) :
      Fired s (.addNew c (id :: rest)) { shared := s, next := [.addNewRequest c id rest] }
  | addedNew (c id : ℕ) (rest : List ℕ) (entry : ConnectionRegistration) :
      Fired s (.addNewRequest c id rest)
        { shared := { s with registrations := s.registrations.put id c entry }
          next := [.addNew c rest] }
  | warned (c id : ℕ) (rest : List ℕ) (message : String) :
      Fired s (.addNewRequest c id rest)
        { shared := s, next := [.addNew c rest], event := some (.warned id c message) }
  | removedConnection (c : ℕ) :
      Fired s (.connectionRemovedInternal c)
        { shared := { s with
            registrations := s.registrations.removeConnection c
            busy := false } }

section Fired

variable {s : State} {choice : Choice} {f : Frame} {e : Effect State Unit Frame Event}

theorem fired_of_fireRegister (h : s.fireRegister choice f = some e) : Fired s f e := by
  revert h
  fun_cases State.fireRegister s choice f <;> rintro ⟨⟩
  · exact .begun _ (isPerm_iff.mp ‹_›)
  · exact .registered _
  · split
    · exact .contained _ _ _ ‹_›
    · exact .asked _ _ _
  · exact .added _ _ _ _
  · split
    · exact .refused _ _ _ _
    · exact .skipped _ _ _ ‹_›

theorem fired_of_fireDeregister (h : s.fireDeregister choice f = some e) : Fired s f e := by
  revert h
  fun_cases State.fireDeregister s choice f <;> rintro ⟨⟩
  · exact .unknown _ _
  · exact .removing _ _ _
  · rename_i successful after
    cases successful with
    | true => exact .removed _ after
    | false => exact .notRemoved _ after
  · exact .asksRemoval _ _ _ _ _ _
  · exact .answeredRemoval _ _ _ _ _ _ _ _
  · exact .answeredRemoval _ _ _ _ _ _ _ _

theorem fired_of_fireConnection (h : s.fireConnection choice f = some e) : Fired s f e := by
  revert h
  fun_cases State.fireConnection s choice f <;> rintro ⟨⟩
  · exact .begunNew _ (isPerm_iff.mp ‹_›)
  · exact .registeredNew _
  · split
    · exact .containedNew _ _ _ ‹_›
    · exact .askedNew _ _ _
  · exact .addedNew _ _ _ _
  · exact .warned _ _ _ _
  · exact .removedConnection _

theorem fired_of_fire (h : s.fire choice f = some e) :
    (∃ t, f = .post t ∧ e = { shared := { s with queue := s.queue ++ [t], locked := false } }) ∨
    Fired s f e := by
  -- the unifier does not look through the cases of the step by itself
  have hregister : s.fireRegister choice f = some e → Fired s f e := fired_of_fireRegister
  have hderegister : s.fireDeregister choice f = some e → Fired s f e := fired_of_fireDeregister
  have hconnection : s.fireConnection choice f = some e → Fired s f e := fired_of_fireConnection
  cases f with
  | post t => exact .inl ⟨t, rfl, (Option.some.inj h).symm⟩
  | registerListenerInternal id | addTo id rest | addRequest id connection rest =>
    exact .inr (hregister h)
  | deregisterListenerInternal id after | removeFrom id rest successful after
  | removeRequest id connection entry rest successful after => exact .inr (hderegister h)
  | connectionAddedInternal connection | addNew connection rest
  | addNewRequest connection id rest | connectionRemovedInternal connection =>
    exact .inr (hconnection h)

end Fired

/-- The frame is going to add the listener to the connection, or to report that it can not be
added. -/
def Frame.Attends (id c : ℕ) : Frame → Prop
  | post t => t = .connectionAdded c
  | addTo id' rest => id' = id ∧ c ∈ rest
  | addRequest id' c' rest => id' = id ∧ c ∈ c' :: rest
  | deregisterListenerInternal id' (.threw _) | removeFrom id' _ _ (.threw _)
  | removeRequest id' _ _ _ _ (.threw _) => id' = id
  | connectionAddedInternal c' => c' = c
  | addNew c' rest => c' = c ∧ id ∈ rest
  | addNewRequest c' id' rest => c' = c ∧ id ∈ id' :: rest
  | _ => False

/-- What a step makes of a listener and a connection: an entry, a report, or a frame or task
that goes on with them. -/
def Carried (id c : ℕ) (e : Effect State Unit Frame Event) : Prop :=
  e.shared.registrations.containsKey id c = true ∨
  (∃ ev ∈ e.event, (∃ ex, ev = .threw id ex) ∨ ∃ message, ev = .warned id c message) ∨
  (∃ g ∈ e.next, g.Attends id c) ∨ .connectionAdded c ∈ e.shared.queue

/-- Before the step the listener is new, or it has an entry, or the frame attends to it. -/
def Due (s : State) (f : Frame) (id c : ℕ) : Prop :=
  id ∉ s.registrations ∨ s.registrations.containsKey id c = true ∨ f.Attends id c

section Carried

variable {s : State} {f g : Frame} {e : Effect State Unit Frame Event} {ev : Option Event}
  {id c : ℕ}

theorem carried_of_attends
    (hpair : Due s f id c)
    (hmem : id ∈ s.registrations)
    (hkeep : s.registrations.containsKey id c = true →
      e.shared.registrations.containsKey id c = true)
    (hattends : f.Attends id c → Carried id c e) : Carried id c e := by
  rcases hpair with hnew | hentry | hattended
  · exact absurd hmem hnew
  · exact .inl (hkeep hentry)
  · exact hattends hattended

theorem carried_of_next (hg : g ∈ e.next) (h : g.Attends id c) : Carried id c e :=
  .inr (.inr (.inl ⟨g, hg, h⟩))

/-- A step that leaves the registrations alone and hands on what its frame attends to. -/
theorem carried_of_same
    (hpair : Due s f id c)
    (hmem : id ∈ s.registrations)
    (hattends : f.Attends id c → s.registrations.containsKey id c = true ∨ g.Attends id c) :
    Carried id c { shared := s, next := [g], event := ev } := by
  refine carried_of_attends hpair hmem (fun hentry => hentry) fun hattended => ?_
  rcases hattends hattended with hentry | hg
  · exact .inl hentry
  · exact carried_of_next mem_cons_self hg

theorem carried_of_put {id₀ c₀ : ℕ} {entry : ConnectionRegistration}
    (hpair : Due s f id c)
    (hmem : id ∈ s.registrations.put id₀ c₀ entry)
    (hattends : f.Attends id c → id₀ = id ∧ c₀ = c ∨ g.Attends id c) :
    Carried id c { shared := { s with registrations := s.registrations.put id₀ c₀ entry }
                   next := [g] } := by
  have hold : id ∈ s.registrations := (Registrations.mem_modify _).mp hmem
  refine carried_of_attends hpair hold Registrations.containsKey_put fun hattended => ?_
  rcases hattends hattended with ⟨rfl, rfl⟩ | hg
  · exact .inl (Registrations.containsKey_put_self hold)
  · exact carried_of_next mem_cons_self hg

/-- The caller of `register_listener` gets the exception. -/
theorem carried_of_finish {s' : State} {id₀ : ℕ} {successful : Bool} {after : After}
    (hpair : Due s (.deregisterListenerInternal id₀ after) id c)
    (hmem : id ∈ s.registrations)
    (hkeep : s.registrations.containsKey id c = true → s'.registrations.containsKey id c = true) :
    Carried id c (after.finish s' id₀ successful) := by
  cases after with
  | threw ex =>
    refine carried_of_attends hpair hmem hkeep fun hattended => ?_
    cases hattended
    exact .inr (.inl ⟨_, rfl, .inl ⟨_, rfl⟩⟩)
  | returned => exact carried_of_attends hpair hmem hkeep False.elim

theorem registrations_finish (s : State) (id : ℕ) (successful : Bool) (after : After) :
    (after.finish s id successful).shared.registrations = s.registrations := by
  cases after <;> rfl

/-- A step of a task loses no listener and connection. -/
theorem carried_of_fired (h : Fired s f e) (hid : id ∈ e.shared.registrations)
    (hc : c ∈ s.activeConnections) (halive : s.alive c = true)
    (hother : f ≠ .connectionRemovedInternal c)
    (hpair : Due s f id c) :
    Carried id c e := by
  cases h with
  | begun id₀ hl =>
    by_cases hsame : id = id₀
    · exact carried_of_next mem_cons_self ⟨hsame.symm, hl.mem_iff.mpr hc⟩
    · have hmem := (mem_insert _).mp hid
      refine carried_of_attends hpair (hmem.resolve_left hsame) (fun hentry => ?_) False.elim
      rw [Registrations.containsKey, lookup_insert_ne hsame]
      exact hentry
  | registered id₀ | registeredNew c₀ =>
    refine carried_of_attends hpair hid (fun hentry => hentry) fun hattended => ?_
    cases hattended.2
  | contained id₀ c₀ rest hentry | containedNew c₀ id₀ rest hentry =>
    refine carried_of_same hpair hid ?_
    rintro ⟨rfl, hmem⟩
    rcases mem_cons.mp hmem with rfl | hrest
    · exact .inl hentry
    · exact .inr ⟨rfl, hrest⟩
  | asked id₀ c₀ rest | askedNew c₀ id₀ rest => exact carried_of_same hpair hid .inr
  | added id₀ c₀ rest entry | addedNew c₀ id₀ rest entry =>
    refine carried_of_put hpair hid ?_
    rintro ⟨rfl, hmem⟩
    rcases mem_cons.mp hmem with rfl | hrest
    · exact .inl ⟨rfl, rfl⟩
    · exact .inr ⟨rfl, hrest⟩
  | refused id₀ c₀ rest ex => exact carried_of_same hpair hid fun hattended => .inr hattended.1
  | skipped id₀ c₀ rest hdead =>
    refine carried_of_same hpair hid ?_
    rintro ⟨rfl, hmem⟩
    rcases mem_cons.mp hmem with rfl | hrest
    · exact absurd halive hdead
    · exact .inr ⟨rfl, hrest⟩
  | unknown id₀ after =>
    rw [registrations_finish] at hid
    exact carried_of_finish hpair hid fun hentry => hentry
  | removing id₀ after rest | asksRemoval id₀ c₀ entry rest successful after
  | answeredRemoval id₀ c₀ entry rest successful successful' after ev =>
    refine carried_of_same hpair hid fun hattended => .inr ?_
    cases after <;> exact hattended
  | removed id₀ after =>
    rw [registrations_finish] at hid
    obtain ⟨hne, hold⟩ := mem_erase.mp hid
    refine carried_of_finish (by cases after <;> exact hpair) hold fun hentry => ?_
    show Registrations.containsKey (s.registrations.erase id₀) id c = true
    rw [Registrations.containsKey, lookup_erase_ne hne]
    exact hentry
  | notRemoved id₀ after =>
    rw [registrations_finish] at hid
    exact carried_of_finish (by cases after <;> exact hpair) hid fun hentry => hentry
  | begunNew c₀ hl =>
    refine carried_of_same hpair hid fun hattended => .inr ⟨hattended, ?_⟩
    exact hl.mem_iff.mpr (mem_keys.mpr hid)
  | warned c₀ id₀ rest message =>
    refine carried_of_attends hpair hid (fun hentry => hentry) ?_
    rintro ⟨rfl, hmem⟩
    rcases mem_cons.mp hmem with rfl | hrest
    · exact .inr (.inl ⟨_, rfl, .inr ⟨_, rfl⟩⟩)
    · exact carried_of_next mem_cons_self ⟨rfl, hrest⟩
  | removedConnection c₀ =>
    refine carried_of_attends hpair (Registrations.mem_removeConnection.mp hid)
      (fun hentry => ?_) False.elim
    refine Registrations.containsKey_removeConnection (fun heq => ?_) hentry
    exact hother (by rw [heq])

end Carried

/-- The frame is the callback for the removal of the connection, or its task. -/
def Frame.Removes (c : ℕ) : Frame → Prop
  | post t => t = .connectionRemoved c
  | connectionRemovedInternal c' => c' = c
  | _ => False

/-- What the steps of a task leave alone. -/
structure Inner (s : State) (e : Effect State Unit Frame Event) : Prop where
  spawned : e.spawned = []
  active : e.shared.activeConnections = s.activeConnections
  dead : e.shared.dead = s.dead
  queue : e.shared.queue = s.queue
  next : ∀ c, ∀ g ∈ e.next, ¬ g.Removes c

section Inner

variable {s : State} {f : Frame} {e : Effect State Unit Frame Event} {s' : State}
  {ev : Option Event}

theorem inner_of_next {g : Frame} (hg : ∀ c, ¬ g.Removes c)
    (hactive : s'.activeConnections = s.activeConnections) (hdead : s'.dead = s.dead)
    (hqueue : s'.queue = s.queue) : Inner s { shared := s', next := [g], event := ev } := by
  refine ⟨rfl, hactive, hdead, hqueue, fun c g' hg' => ?_⟩
  cases mem_singleton.mp hg'
  exact hg c

section

variable (hactive : s'.activeConnections = s.activeConnections)

include hactive

theorem inner_of_end (hdead : s'.dead = s.dead) (hqueue : s'.queue = s.queue) :
    Inner s { shared := s', event := ev } :=
  ⟨rfl, hactive, hdead, hqueue, fun _ _ hg => absurd hg not_mem_nil⟩

theorem inner_of_finish (hdead : s'.dead = s.dead) (hqueue : s'.queue = s.queue) (id : ℕ)
    (successful : Bool) (after : After) : Inner s (after.finish s' id successful) := by
  cases after with
  | threw ex | returned => exact inner_of_end hactive hdead hqueue

end

theorem inner_of_fired (h : Fired s f e) : Inner s e := by
  cases h with
  | registered id | registeredNew c | removedConnection c => exact inner_of_end rfl rfl rfl
  | unknown id after | notRemoved id after => exact inner_of_finish rfl rfl rfl id false after
  | removed id after => refine inner_of_finish ?_ ?_ ?_ id true after <;> rfl
  | _ => exact inner_of_next (fun _ => id) rfl rfl rfl

end Inner

/-- A listener has an entry for the connection, or the failure to add it has been reported to
the caller of `register_listener`, or it is in the log. -/
def Accounted (events : List Event) (s : State) (id c : ℕ) : Prop :=
  s.registrations.containsKey id c = true ∨ (∃ ex, .threw id ex ∈ events) ∨
    ∃ message, .warned id c message ∈ events

/-- Every listener is accounted for on every active connection that is alive, or something is
under way that attends to it. A connection that is being removed is not alive. -/
structure Covered (events : List Event) (s : State) (frames : List Frame) : Prop where
  pairs : ∀ id c, id ∈ s.registrations → c ∈ s.activeConnections → s.alive c = true →
    Accounted events s id c ∨ (∃ f ∈ frames, f.Attends id c) ∨ .connectionAdded c ∈ s.queue
  removals : ∀ c, .connectionRemoved c ∈ s.queue ∨ (∃ f ∈ frames, f.Removes c) →
    s.alive c = false

namespace Covered

variable {events : List Event} {s : State} {frames others : List Frame} {f : Frame}
  {choice : Choice} {e : Effect State Unit Frame Event} {t : Task}

theorem perm {frames' : List Frame} (h : Covered events s frames) (hperm : frames.Perm frames') :
    Covered events s frames' := by
  obtain ⟨pairs, removals⟩ := h
  simp only [hperm.mem_iff] at pairs removals
  exact ⟨pairs, removals⟩

theorem post (h : Covered events s (.post t :: others)) :
    Covered events { s with queue := s.queue ++ [t], locked := false } others := by
  refine ⟨fun id c hid hc halive => ?_, fun c hremoves => h.removals c ?_⟩
  · rcases h.pairs id c hid hc halive with haccounted | ⟨f, hf, hattends⟩ | hqueued
    · exact .inl haccounted
    · rcases mem_cons.mp hf with rfl | hf
      · refine .inr (.inr (mem_append_right _ ?_))
        rw [show t = .connectionAdded c from hattends]
        exact mem_cons_self
      · exact .inr (.inl ⟨f, hf, hattends⟩)
    · exact .inr (.inr (mem_append_left _ hqueued))
  · rcases hremoves with hqueued | ⟨f, hf, hremoves⟩
    · rcases mem_append.mp hqueued with hold | hnew
      · exact .inl hold
      · exact .inr ⟨_, mem_cons_self, (mem_singleton.mp hnew).symm⟩
    · exact .inr ⟨f, mem_cons_of_mem _ hf, hremoves⟩

theorem fire (h : Covered events s (f :: others)) (hfire : s.fire choice f = some e) :
    Covered (events ++ e.event.toList) e.shared (e.next ++ e.spawnedFrames ++ others) := by
  rcases fired_of_fire hfire with ⟨t, rfl, rfl⟩ | hfired
  · rw [toList_none, append_nil]
    exact h.post
  · have hinner := inner_of_fired hfired
    have halive_eq : ∀ c, e.shared.alive c = s.alive c := by
      intro c
      rw [State.alive, hinner.dead, State.alive]
    rw [Effect.spawnedFrames, hinner.spawned, flatMap_nil, append_nil]
    refine ⟨fun id c hid hc halive => ?_, fun c hremoves => ?_⟩
    · rw [hinner.active] at hc
      rw [halive_eq] at halive
      have hother : f ≠ .connectionRemovedInternal c := by
        rintro rfl
        rw [h.removals c (.inr ⟨_, mem_cons_self, rfl⟩)] at halive
        cases halive
      have hgoes : Due s f id c → Accounted (events ++ e.event.toList) e.shared id c ∨
          (∃ g ∈ e.next ++ others, g.Attends id c) ∨ .connectionAdded c ∈ e.shared.queue := by
        intro hpair
        rcases carried_of_fired hfired hid hc halive hother hpair with
          hentry | ⟨ev, hev, ⟨ex, rfl⟩ | ⟨message, rfl⟩⟩ | ⟨g, hg, hattends⟩ | hqueued
        · exact .inl (.inl hentry)
        · exact .inl (.inr (.inl ⟨ex, mem_append_right _ (mem_toList.mpr hev)⟩))
        · exact .inl (.inr (.inr
            ⟨message, mem_append_right _ (mem_toList.mpr hev)⟩))
        · exact .inr (.inl ⟨g, mem_append_left _ hg, hattends⟩)
        · exact .inr (.inr hqueued)
      by_cases hnew : id ∈ s.registrations
      · rcases h.pairs id c hnew hc halive with
          (hentry | ⟨ex, hex⟩ | ⟨message, hmessage⟩) | ⟨g, hg, hattends⟩ | hqueued
        · exact hgoes (.inr (.inl hentry))
        · exact .inl (.inr (.inl ⟨ex, mem_append_left _ hex⟩))
        · exact .inl (.inr (.inr ⟨message, mem_append_left _ hmessage⟩))
        · rcases mem_cons.mp hg with rfl | hg
          · exact hgoes (.inr (.inr hattends))
          · exact .inr (.inl ⟨g, mem_append_right _ hg, hattends⟩)
        · rw [← hinner.queue] at hqueued
          exact .inr (.inr hqueued)
      · exact hgoes (.inl hnew)
    · rw [halive_eq]
      refine h.removals c ?_
      rcases hremoves with hqueued | ⟨g, hg, hremoves⟩
      · rw [hinner.queue] at hqueued
        exact .inl hqueued
      · rcases mem_append.mp hg with hnext | hg
        · exact absurd hremoves (hinner.next c g hnext)
        · exact .inr ⟨g, mem_cons_of_mem _ hg, hremoves⟩

section

variable (h : Covered events s frames) (c₀ : ℕ)

include h

theorem enqueue {issued : ℕ} (ht : ∀ c, t ≠ .connectionRemoved c) :
    Covered events { s with queue := s.queue ++ [t], issued := issued } frames := by
  refine ⟨fun id c hid hc halive => ?_, fun c hremoves => h.removals c ?_⟩
  · exact (h.pairs id c hid hc halive).imp_right (Or.imp_right (mem_append_left _))
  · refine hremoves.imp_left fun hqueued => ?_
    rcases mem_append.mp hqueued with hold | hnew
    · exact hold
    · exact absurd (mem_singleton.mp hnew).symm (ht c)

theorem append {g : Frame} (hg : ∀ c, g.Removes c → s.alive c = false) :
    Covered events s (frames ++ [g]) := by
  refine ⟨fun id c hid hc halive => ?_, fun c hremoves => ?_⟩
  · refine (h.pairs id c hid hc halive).imp_right (Or.imp_left ?_)
    rintro ⟨f, hf, hattends⟩
    exact ⟨f, mem_append_left _ hf, hattends⟩
  · rcases hremoves with hqueued | ⟨f, hf, hremoves⟩
    · exact h.removals c (.inl hqueued)
    · rcases mem_append.mp hf with hold | hnew
      · exact h.removals c (.inr ⟨f, hold, hremoves⟩)
      · exact hg c (mem_singleton.mp hnew ▸ hremoves)

theorem authenticated :
    Covered events
      { s with activeConnections := c₀ :: s.activeConnections, used := c₀ :: s.used,
               locked := true }
      (frames ++ [.post (.connectionAdded c₀)]) := by
  have happend := h.append (g := .post (.connectionAdded c₀)) nofun
  refine ⟨fun id c hid hc halive => ?_, happend.removals⟩
  rcases mem_cons.mp hc with rfl | hc
  · exact .inr (.inl ⟨_, mem_append_right _ mem_cons_self, rfl⟩)
  · exact happend.pairs id c hid hc halive

theorem died : Covered events { s with dead := c₀ :: s.dead } frames := by
  have halive_of : ∀ c,
      State.alive { s with dead := c₀ :: s.dead } c = true → s.alive c = true := by
    intro c
    simp only [State.alive, contains_cons, Bool.not_or, Bool.and_eq_true]
    exact And.right
  refine ⟨fun id c hid hc halive => h.pairs id c hid hc (halive_of c halive), fun c hremoves => ?_⟩
  rw [Bool.eq_false_iff]
  intro halive
  have hdead := h.removals c hremoves
  rw [halive_of c halive] at hdead
  cases hdead

theorem closed {c₀ : ℕ} (hdead : s.alive c₀ = false) :
    Covered events
      { s with activeConnections := s.activeConnections.erase c₀, locked := true }
      (frames ++ [.post (.connectionRemoved c₀)]) := by
  have happend : Covered events s (frames ++ [.post (.connectionRemoved c₀)]) :=
    h.append fun c heq => by
      cases heq
      exact hdead
  exact ⟨fun id c hid hc => happend.pairs id c hid (mem_of_mem_erase hc), happend.removals⟩

theorem run {queue : List Task} (hqueue : s.queue = t :: queue) :
    Covered events { s with queue := queue, busy := true } (frames ++ [t.frame]) := by
  have happend : Covered events s (frames ++ [t.frame]) := by
    refine h.append fun c hremoves => h.removals c (.inl ?_)
    cases t with
    | connectionRemoved c' =>
      cases hremoves
      exact hqueue ▸ mem_cons_self
    | _ => cases hremoves
  refine ⟨fun id c hid hc halive => ?_, fun c hremoves => happend.removals c ?_⟩
  · rcases happend.pairs id c hid hc halive with haccounted | hattended | hqueued
    · exact .inl haccounted
    · exact .inr (.inl hattended)
    · rw [hqueue] at hqueued
      rcases mem_cons.mp hqueued with rfl | hrest
      · exact .inr (.inl ⟨_, mem_append_right _ mem_cons_self, rfl⟩)
      · exact .inr (.inr hrest)
  · exact hremoves.imp_left fun hqueued => hqueue ▸ mem_cons_of_mem _ hqueued

theorem outside (hout : s.outside choice = some e) :
    Covered (events ++ e.event.toList) e.shared (frames ++ e.spawnedFrames) := by
  revert hout
  fun_cases State.outside s choice <;> rintro ⟨⟩ <;>
    simp only [toList_none, append_nil, Effect.spawnedFrames, flatMap_nil, flatMap_cons]
  · exact h.enqueue (by simp)
  · exact h.enqueue (by simp)
  · exact h.authenticated _
  · exact h.died _
  · rename_i hguard
    refine h.closed (Bool.eq_false_iff.mpr fun halive => hguard ?_)
    simp [halive]
  · exact h.run ‹_›

end

end Covered

theorem covered_of_run {events : List Event} {c : Config State Unit Frame}
    (hrun : Run machine Always ⟨{}, []⟩ events c) : Covered events c.shared c.frames := by
  refine hrun.frameInvariant (P := Covered) (fun hperm h => h.perm hperm) ?_ ?_ ?_
  · refine ⟨fun id c hid => ?_, fun c hremoves => ?_⟩
    · cases hid
    · rcases hremoves with h | ⟨f, hf, -⟩
      · cases h
      · cases hf
  · intro es c₁ f choice others threads e _ _ h _ hfire
    exact h.fire hfire
  · intro es c₁ choice e _ h _ hout
    exact h.outside hout

/-- When no callback and no task is under way, every registered listener has an entry for
every active connection that is alive, unless the failure to add it was reported to the
caller of `register_listener` or is in the log. -/
theorem listener_accounted_for {events : List Event} {cfg : Config State Unit Frame}
    (hrun : Run machine Always ⟨{}, []⟩ events cfg) (hquiet : cfg.frames = [])
    (hqueue : cfg.shared.queue = []) {id c : ℕ} (hid : id ∈ cfg.shared.registrations)
    (hactive : c ∈ cfg.shared.activeConnections) (halive : cfg.shared.alive c = true) :
    Accounted events cfg.shared id c := by
  rcases (covered_of_run hrun).pairs id c hid hactive halive with
    haccounted | ⟨f, hf, -⟩ | hqueued
  · exact haccounted
  · rw [hquiet] at hf
    cases hf
  · rw [hqueue] at hqueued
    cases hqueued

/-- A listener is added to the connection there is, and can not be added to a second one. -/
def newConnectionPicks : List (Pick Choice) :=
  [.outside (.authenticated 1), .thread 0 .go, .outside .run, .thread 1 (.order []), .thread 1 .go,
    .outside .registerListener, .outside .run, .thread 2 (.order [1]), .thread 2 .go,
    .thread 2 (.added ⟨7, 3⟩), .thread 2 .go,
    .outside (.authenticated 2), .thread 3 .go, .outside .run, .thread 4 (.order [0]),
    .thread 4 .go, .thread 4 (.failed "timeout"), .thread 4 .go]

theorem listener_accounted_for_new_connection :
    ∃ events cfg, Run machine Always ⟨{}, []⟩ events cfg ∧ cfg.frames = [] ∧
      0 ∈ cfg.shared.registrations ∧ 2 ∈ cfg.shared.activeConnections ∧
      Accounted events cfg.shared 0 2 := by
  have hexec : ∃ events cfg, machine.execAll (fun _ _ => true) ⟨{}, []⟩ newConnectionPicks =
      some (events, cfg) ∧ cfg.frames = [] ∧ cfg.shared.queue = [] ∧
      0 ∈ cfg.shared.registrations.keys ∧ cfg.shared.activeConnections = [2, 1] ∧
      cfg.shared.alive 2 = true := ⟨_, _, rfl, rfl, rfl, by decide, rfl, rfl⟩
  obtain ⟨events, cfg, hexec, hquiet, hqueue, hkeys, hactive, halive⟩ := hexec
  have hrun := (Run.of_execAll hexec).always
  have hid : 0 ∈ cfg.shared.registrations := mem_keys.mp hkeys
  have hmem : 2 ∈ cfg.shared.activeConnections := by
    rw [hactive]
    decide
  exact ⟨events, cfg, hrun, hquiet, hid, hmem,
    listener_accounted_for hrun hquiet hqueue hid hmem halive⟩

/-- The listener has no entry for the second connection, and the call of
`register_listener` has returned. -/
theorem listener_missing_on_new_connection :
    ∃ events cfg, Run machine Always ⟨{}, []⟩ events cfg ∧ cfg.frames = [] ∧
      cfg.shared.queue = [] ∧ 0 ∈ cfg.shared.registrations ∧ 2 ∈ cfg.shared.activeConnections ∧
      cfg.shared.alive 2 = true ∧ cfg.shared.registrations.containsKey 0 2 = false ∧
      ∀ ex, .threw 0 ex ∉ events := by
  have hexec : ∃ cfg, machine.execAll (fun _ _ => true) ⟨{}, []⟩ newConnectionPicks =
      some ([.registered 0, .warned 0 2 (cannotBeAddedToNew 0 2 "timeout")], cfg) ∧
      cfg.frames = [] ∧ cfg.shared.queue = [] ∧ 0 ∈ cfg.shared.registrations.keys ∧
      cfg.shared.activeConnections = [2, 1] ∧ cfg.shared.alive 2 = true ∧
      cfg.shared.registrations.containsKey 0 2 = false :=
    ⟨_, rfl, rfl, rfl, by decide, rfl, rfl, rfl⟩
  obtain ⟨cfg, hexec, hquiet, hqueue, hkeys, hactive, halive, hmissing⟩ := hexec
  refine ⟨_, cfg, (Run.of_execAll hexec).always, hquiet, hqueue,
    mem_keys.mp hkeys, ?_, halive, hmissing, fun ex hex => ?_⟩
  · rw [hactive]
    decide
  · simp at hex

end HazelcastClient.Spi.ListenerService
