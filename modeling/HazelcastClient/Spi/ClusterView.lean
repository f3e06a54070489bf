import HazelcastClient.Interleaving.Machine
import Mathlib.Data.List.AList

/-!
# Cluster view listener

The listener for the members and partitions of the cluster is registered on one of the
connections. `listener_added_connection_id_` holds the id of this connection, or `-1`. A new
connection takes the place when it is vacant. When the connection is removed, another one is
asked for.

Both callbacks run under `client_state_mutex_`, as do the changes of the active connections;
the mutex is given back with the last step of a callback. The request of a registration is
completed at any time. A failed registration was meant to be repeated on another connection,
but the continuation gets the exception out of the future once more and ends with it.
-/

namespace HazelcastClient.Spi.ClusterView

open Interleaving List Option AList

variable {U : Type} [DecidableEq U]

inductive Failure where
  | clientNotActive
  | other (code : ℤ)
  deriving DecidableEq

inductive Outcome where
  | value
  | exception (e : Failure)
  deriving DecidableEq

inductive Frame where
  | tryRegister (id : ℕ)
  | tryReregister (oldConnectionId : ℕ)
  | getRandomConnection
  | request (id : ℕ)
  deriving DecidableEq

/-- The member that the load balancer names, and the first of the connections; the outcome
of a request; and connections that come and go. -/
inductive Choice (U : Type) where
  | random (member : Option U) (first : Option ℕ)
  | completed (outcome : Outcome)
  | authenticated (member : U) (id : ℕ)
  | closed (member : U) (id : ℕ)
  | go

inductive Event where
  | registered (id : ℕ)
  deriving DecidableEq

structure State (U : Type) where
  listenerAddedConnectionId : ℤ := -1
  activeConnections : AList fun _ : U => ℕ := ∅
  /-- the ids given to connections so far -/
  used : List ℕ := []
  locked : Bool := false

namespace State

/-- The values of the map, in an order that is left open. -/
def connections (s : State U) : List ℕ := s.activeConnections.entries.map Sigma.snd

def IsFirst (s : State U) : Option ℕ → Prop
  | none => s.connections = []
  | some id => id ∈ s.connections

instance (s : State U) (first : Option ℕ) : Decidable (s.IsFirst first) :=
  match first with
  | none => inferInstanceAs (Decidable (s.connections = []))
  | some id => inferInstanceAs (Decidable (id ∈ s.connections))

/-- `get_random_connection`. A load balancer that names no member ends the search. -/
def getRandomConnection (s : State U) (smartRouting : Bool) (member : Option U)
    (first : Option ℕ) : Option ℕ :=
  if smartRouting then
    match member with
    | none => none
    | some m => (s.activeConnections.lookup m).or first
  else first

def tryRegister (s : State U) (id : ℕ) : Effect (State U) Unit Frame Event :=
  if s.listenerAddedConnectionId = -1 then
    { shared := { s with listenerAddedConnectionId := id, locked := false }
      spawned := [⟨(), [.request id]⟩] }
  else { shared := { s with locked := false } }

def tryReregister (s : State U) (oldConnectionId : ℕ) : Effect (State U) Unit Frame Event :=
  if s.listenerAddedConnectionId = oldConnectionId then
    { shared := { s with listenerAddedConnectionId := -1 }, next := [.getRandomConnection] }
  else { shared := { s with locked := false } }

/-- The continuation of the request. What follows `f.get()` is not reached: the future has no
value, and only one exception is caught. -/
def completed (s : State U) (id : ℕ) : Outcome → Effect (State U) Unit Frame Event
  | .value => { shared := s, event := some (.registered id) }
  | .exception .clientNotActive => { shared := s }
  | .exception (.other _) => { shared := s }

def fire (s : State U) (smartRouting : Bool) (choice : Choice U) :
    Frame → Option (Effect (State U) Unit Frame Event)
  | .tryRegister id => some (s.tryRegister id)
  | .tryReregister id => some (s.tryReregister id)
  | .getRandomConnection =>
    match choice with
    | .random member first =>
      if s.IsFirst first then
        match s.getRandomConnection smartRouting member first with
        | none => some { shared := { s with locked := false } }
        | some id => some { shared := s, next := [.tryRegister id] }
      else none
    | _ => none
  | .request id =>
    match choice with
    | .completed outcome => some (s.completed id outcome)
    | _ => none

/-- `on_authenticated` and `on_connection_close`, up to their callbacks. A second connection
to a member is closed again. -/
def outside (s : State U) (choice : Choice U) : Option (Effect (State U) Unit Frame Event) :=
  if s.locked then none
  else
    match choice with
    | .authenticated member id =>
      if id ∈ s.used then none
      else if s.activeConnections.lookup member = none then
        some { shared := { s with
                 activeConnections := s.activeConnections.insert member id
                 used := id :: s.used
                 locked := true }
               spawned := [⟨(), [.tryRegister id]⟩] }
      else some { shared := { s with used := id :: s.used } }
    | .closed member id =>
      if s.activeConnections.lookup member = some id then
        some { shared := { s with
                 activeConnections := s.activeConnections.erase member
                 locked := true }
               spawned := [⟨(), [.tryReregister id]⟩] }
      else some { shared := s }
    | _ => none

end State

def machine (U : Type) [DecidableEq U] (smartRouting : Bool) :
    Machine (State U) Unit Frame (Choice U) Event where
  fire s _ choice f := s.fire smartRouting choice f
  outside s choice := s.outside choice

namespace State

def Active (s : State U) (id : ℕ) : Prop := ∃ member, s.activeConnections.lookup member = some id

theorem active_iff_mem {s : State U} {id : ℕ} : s.Active id ↔ id ∈ s.connections := by
  unfold Active connections
  constructor
  · rintro ⟨member, hmember⟩
    exact mem_map.mpr ⟨⟨member, id⟩, mem_lookup_iff.mp hmember, rfl⟩
  · intro hid
    obtain ⟨⟨member, id'⟩, hmem, rfl⟩ := mem_map.mp hid
    exact ⟨member, mem_lookup_iff.mpr hmem⟩

instance (s : State U) (id : ℕ) : Decidable (s.Active id) :=
  decidable_of_iff (id ∈ s.connections) active_iff_mem.symm

section Random

variable {s : State U} {smartRouting : Bool} {member : Option U} {first : Option ℕ}

theorem active_of_random {id : ℕ} (hfirst : s.IsFirst first)
    (h : s.getRandomConnection smartRouting member first = some id) : s.Active id := by
  have hof : first = some id → s.Active id := by
    rintro rfl
    exact active_iff_mem.mpr hfirst
  cases smartRouting with
  | false => exact hof h
  | true =>
    cases member with
    | none => cases h
    | some m =>
      rcases or_eq_some_iff.mp h with hlookup | ⟨-, hsome⟩
      · exact ⟨m, hlookup⟩
      · exact hof hsome

theorem connections_of_random (hfirst : s.IsFirst first)
    (hmember : smartRouting = true → member = none → s.connections = [])
    (h : s.getRandomConnection smartRouting member first = none) : s.connections = [] := by
  have hof : first = none → s.connections = [] := by
    rintro rfl
    exact hfirst
  cases smartRouting with
  | false => exact hof h
  | true =>
    cases member with
    | none => exact hmember rfl rfl
    | some m => exact hof (or_eq_none_iff.mp h).2

end Random

def Registered (s : State U) (events : List Event) : Prop :=
  ∃ id : ℕ, s.listenerAddedConnectionId = id ∧ s.Active id ∧ .registered id ∈ events

end State

/-- A registration fails only on a connection that is not active any more, and the load
balancer names a member as long as there is an active connection. -/
def Harmless (smartRouting : Bool) (c : Config (State U) Unit Frame) :
    Move Frame (Choice U) → Prop
  | .frame (.request id) (.completed (.exception _)) => ¬ c.shared.Active id
  | .frame .getRandomConnection (.random none _) =>
    smartRouting = true → c.shared.connections = []
  | _ => True

instance (smartRouting : Bool) (c : Config (State U) Unit Frame) (mv : Move Frame (Choice U)) :
    Decidable (Harmless smartRouting c mv) := by
  unfold Harmless
  split <;> infer_instance

def Frame.isCallback : Frame → Bool
  | request _ => false
  | _ => true

/-- The place is taken by a connection that is active and has been asked, or is about to be
given up by the callback for its removal. It is vacant only without active connections, or
while a callback looks for one. -/
structure Kept (events : List Event) (s : State U) (frames : List Frame) : Prop where
  callbacks : frames.countP Frame.isCallback = if s.locked then 1 else 0
  register : ∀ id, .tryRegister id ∈ frames → s.Active id
  taken : s.listenerAddedConnectionId ≠ -1 → ∃ id : ℕ, s.listenerAddedConnectionId = id ∧
    (s.Active id ∧ (.request id ∈ frames ∨ .registered id ∈ events) ∨
      .tryReregister id ∈ frames)
  vacant : s.listenerAddedConnectionId = -1 →
    (∀ id, ¬ s.Active id) ∨ (∃ id, .tryRegister id ∈ frames) ∨ .getRandomConnection ∈ frames

namespace Kept

variable {events : List Event} {s : State U} {frames others : List Frame} {id : ℕ} {f : Frame}
  {choice : Choice U} {e : Effect (State U) Unit Frame Event}

theorem others_request (h : Kept events s (f :: others)) (hf : f.isCallback = true) :
    s.locked = true ∧ others.countP Frame.isCallback = 0 ∧ ∀ g ∈ others, g.isCallback = false := by
  have hcount := h.callbacks
  rw [countP_cons_of_pos hf] at hcount
  cases hlocked : s.locked with
  | false => simp [hlocked] at hcount
  | true =>
    have hzero : others.countP Frame.isCallback = 0 := by
      simp only [hlocked, if_true] at hcount
      omega
    refine ⟨rfl, hzero, fun g hg => ?_⟩
    have hnot := countP_eq_zero.mp hzero g hg
    exact Bool.eq_false_of_not_eq_true hnot

theorem eq_head {g : Frame} (hothers : ∀ g ∈ others, g.isCallback = false) (hmem : g ∈ f :: others)
    (hg : g.isCallback = true) : g = f := by
  rcases mem_cons.mp hmem with heq | hmem
  · exact heq
  · rw [hothers g hmem] at hg
    cases hg

theorem unlock (h : Kept events s (f :: others)) (hf : f.isCallback = true)
    (htaken : ∀ id : ℕ, s.listenerAddedConnectionId = id → f ≠ .tryReregister id)
    (hvacant : s.listenerAddedConnectionId = -1 → ∀ id, ¬ s.Active id) :
    Kept events { s with locked := false } others := by
  obtain ⟨-, hzero, hothers⟩ := h.others_request hf
  refine ⟨hzero, fun id hid => ?_, fun hcell => ?_, fun hcell => .inl (hvacant hcell)⟩
  · cases hothers _ hid
  · obtain ⟨id, hid, ⟨hactive, hasked⟩ | hgiven⟩ := h.taken hcell
    · refine ⟨id, hid, .inl ⟨hactive, ?_⟩⟩
      rcases hasked with hmem | hregistered
      · rcases mem_cons.mp hmem with rfl | hmem
        · cases hf
        · exact .inl hmem
      · exact .inr hregistered
    · rcases mem_cons.mp hgiven with heq | hmem
      · exact absurd heq.symm (htaken id hid)
      · exact ⟨id, hid, .inr hmem⟩

theorem tryRegister (h : Kept events s (.tryRegister id :: others)) :
    Kept events (s.tryRegister id).shared
      ((s.tryRegister id).next ++ (s.tryRegister id).spawnedFrames ++ others) := by
  obtain ⟨-, hzero, hothers⟩ := h.others_request rfl
  have hactive : s.Active id := h.register id mem_cons_self
  unfold State.tryRegister
  by_cases hcell : s.listenerAddedConnectionId = -1
  · rw [if_pos hcell]
    show Kept events _ (.request id :: others)
    refine ⟨?_, fun id' hid' => ?_, fun _ => ?_, fun hvacant => ?_⟩
    · rw [countP_cons_of_neg Bool.false_ne_true, hzero]
      rfl
    · cases eq_head hothers hid' rfl
    · exact ⟨id, rfl, .inl ⟨hactive, .inl mem_cons_self⟩⟩
    · exact absurd hvacant (by simp only; omega)
  · rw [if_neg hcell]
    refine h.unlock rfl (fun id' _ heq => ?_) fun hvacant => absurd hvacant hcell
    cases heq

theorem tryReregister (h : Kept events s (.tryReregister id :: others)) :
    Kept events (s.tryReregister id).shared
      ((s.tryReregister id).next ++ (s.tryReregister id).spawnedFrames ++ others) := by
  obtain ⟨hlocked, hzero, hothers⟩ := h.others_request rfl
  unfold State.tryReregister
  by_cases hcell : s.listenerAddedConnectionId = id
  · rw [if_pos hcell]
    show Kept events _ (.getRandomConnection :: others)
    refine ⟨?_, fun id' hid' => ?_, fun htaken => absurd rfl htaken, fun _ => ?_⟩
    · rw [countP_cons_of_pos rfl, hzero, hlocked]
      rfl
    · cases eq_head hothers hid' rfl
    · exact .inr (.inr mem_cons_self)
  · rw [if_neg hcell]
    refine h.unlock rfl (fun id' hid' heq => ?_) fun hvacant => ?_
    · cases heq
      exact hcell hid'
    · -- nobody else is looking for a connection
      rcases h.vacant hvacant with hnone | ⟨id', hid'⟩ | hrandom
      · exact hnone
      · cases eq_head hothers hid' rfl
      · cases eq_head hothers hrandom rfl

section

variable (h : Kept events s frames) {member : U}

include h

theorem perm {frames' : List Frame} (hperm : frames.Perm frames') : Kept events s frames' := by
  obtain ⟨callbacks, register, taken, vacant⟩ := h
  simp only [hperm.mem_iff, hperm.countP_eq] at callbacks register taken vacant
  exact ⟨callbacks, register, taken, vacant⟩

theorem all_request (hlocked : s.locked = false) : ∀ g ∈ frames, g.isCallback = false := by
  intro g hg
  have hcount := h.callbacks
  rw [hlocked] at hcount
  exact Bool.eq_false_of_not_eq_true (countP_eq_zero.mp hcount g hg)

theorem authenticated (hunlocked : s.locked = false)
    (hfree : s.activeConnections.lookup member = none) :
    Kept events
      { s with activeConnections := s.activeConnections.insert member id, used := id :: s.used,
               locked := true }
      (frames ++ [.tryRegister id]) := by
  have hrequests := h.all_request hunlocked
  have hnew : (s.activeConnections.insert member id).lookup member = some id :=
    lookup_insert _
  have hold : ∀ id', s.Active id' →
      ∃ m, (s.activeConnections.insert member id).lookup m = some id' := by
    rintro id' ⟨m, hm⟩
    refine ⟨m, ?_⟩
    rw [lookup_insert_ne, hm]
    rintro rfl
    rw [hfree] at hm
    cases hm
  refine ⟨?_, fun id' hid' => ?_, fun htaken => ?_, fun _ => ?_⟩
  · rw [countP_append, h.callbacks, hunlocked]
    rfl
  · rcases mem_append.mp hid' with hmem | hmem
    · cases hrequests _ hmem
    · cases mem_singleton.mp hmem
      exact ⟨member, hnew⟩
  · obtain ⟨id', hid', ⟨hactive, hasked⟩ | hgiven⟩ := h.taken htaken
    · exact ⟨id', hid', .inl ⟨hold id' hactive, hasked.imp_left (mem_append_left _)⟩⟩
    · cases hrequests _ hgiven
  · exact .inr (.inl ⟨id, mem_append_right _ mem_cons_self⟩)

theorem closed (hunlocked : s.locked = false)
    (hactive : s.activeConnections.lookup member = some id) :
    Kept events
      { s with activeConnections := s.activeConnections.erase member, locked := true }
      (frames ++ [.tryReregister id]) := by
  have hrequests := h.all_request hunlocked
  have hstays : ∀ id', id' ≠ id → s.Active id' →
      ∃ m, (s.activeConnections.erase member).lookup m = some id' := by
    rintro id' hne ⟨m, hm⟩
    refine ⟨m, ?_⟩
    rw [lookup_erase_ne, hm]
    rintro rfl
    rw [hactive] at hm
    exact hne (Option.some.inj hm).symm
  refine ⟨?_, fun id' hid' => ?_, fun htaken => ?_, fun hvacant => ?_⟩
  · rw [countP_append, h.callbacks, hunlocked]
    rfl
  · rcases mem_append.mp hid' with hmem | hmem
    · cases hrequests _ hmem
    · cases mem_singleton.mp hmem
  · obtain ⟨id', hid', ⟨hold, hasked⟩ | hgiven⟩ := h.taken htaken
    · by_cases hsame : id' = id
      · rw [hsame] at hid'
        exact ⟨id, hid', .inr (mem_append_right _ mem_cons_self)⟩
      · exact ⟨id', hid',
          .inl ⟨hstays id' hsame hold, hasked.imp_left (mem_append_left _)⟩⟩
    · cases hrequests _ hgiven
  · rcases h.vacant hvacant with hnone | ⟨id', hid'⟩ | hrandom
    · exact absurd ⟨member, hactive⟩ (hnone id)
    · cases hrequests _ hid'
    · cases hrequests _ hrandom

theorem outside (hout : s.outside choice = some e) :
    Kept (events ++ e.event.toList) e.shared (frames ++ e.spawnedFrames) := by
  revert hout
  fun_cases State.outside s choice <;> rintro ⟨⟩ <;>
    simp only [toList_none, append_nil, Effect.spawnedFrames, flatMap_nil, flatMap_cons]
  · exact h.authenticated (Bool.eq_false_of_not_eq_true ‹_›) ‹_›
  · exact ⟨h.callbacks, h.register, h.taken, h.vacant⟩
  · exact h.closed (Bool.eq_false_of_not_eq_true ‹_›) ‹_›
  · exact h

end

theorem getRandomConnection (h : Kept events s (.getRandomConnection :: others))
    (hactive : s.Active id) : Kept events s (.tryRegister id :: others) := by
  obtain ⟨hlocked, hzero, hothers⟩ := h.others_request rfl
  refine ⟨?_, fun id' hid' => ?_, fun htaken => ?_,
    fun _ => .inr (.inl ⟨id, mem_cons_self⟩)⟩
  · rw [countP_cons_of_pos rfl, hzero, hlocked]
    rfl
  · cases eq_head hothers hid' rfl
    exact hactive
  · obtain ⟨id', hid', hcases⟩ := h.taken htaken
    refine ⟨id', hid', ?_⟩
    simpa using hcases

/-- A registration succeeds, or fails when its connection is gone. -/
theorem completed (h : Kept events s (.request id :: others)) {outcome : Outcome}
    (hok : outcome ≠ .value → ¬ s.Active id) :
    Kept (events ++ (s.completed id outcome).event.toList) (s.completed id outcome).shared
      ((s.completed id outcome).next ++ (s.completed id outcome).spawnedFrames ++ others) := by
  have hrest : ∀ f, f.isCallback = true → (f ∈ Frame.request id :: others ↔ f ∈ others) := by
    intro f hf
    refine ⟨fun hmem => ?_, mem_cons_of_mem _⟩
    rcases mem_cons.mp hmem with rfl | hmem
    · cases hf
    · exact hmem
  have hkept : ∀ es, (outcome = .value → .registered id ∈ es) → (∀ ev ∈ events, ev ∈ es) →
      Kept es s others := by
    intro es hnew hold
    refine ⟨?_, fun id' hid' => ?_, fun htaken => ?_, fun hvacant => ?_⟩
    · rw [← h.callbacks, countP_cons_of_neg Bool.false_ne_true]
    · exact h.register id' (mem_cons_of_mem _ hid')
    · obtain ⟨id', hid', ⟨hactive, hasked⟩ | hgiven⟩ := h.taken htaken
      · refine ⟨id', hid', .inl ⟨hactive, ?_⟩⟩
        rcases hasked with hmem | hregistered
        · rcases mem_cons.mp hmem with heq | hmem
          · cases heq
            by_cases hvalue : outcome = .value
            · exact .inr (hnew hvalue)
            · exact absurd hactive (hok hvalue)
          · exact .inl hmem
        · exact .inr (hold _ hregistered)
      · exact ⟨id', hid', .inr ((hrest _ rfl).mp hgiven)⟩
    · rcases h.vacant hvacant with hnone | ⟨id', hid'⟩ | hrandom
      · exact .inl hnone
      · exact .inr (.inl ⟨id', (hrest _ rfl).mp hid'⟩)
      · exact .inr (.inr ((hrest _ rfl).mp hrandom))
  cases outcome with
  | value =>
    exact hkept _ (fun _ => mem_append_right _ mem_cons_self)
      fun ev hev => mem_append_left _ hev
  | exception e =>
    cases e with
    | clientNotActive | other code =>
      exact hkept _ (fun hvalue => by cases hvalue) fun ev hev => mem_append_left _ hev

theorem fire {c : Config (State U) Unit Frame} {smartRouting : Bool}
    (h : Kept events c.shared (f :: others)) (hok : Harmless smartRouting c (.frame f choice))
    (hfire : c.shared.fire smartRouting choice f = some e) :
    Kept (events ++ e.event.toList) e.shared (e.frames ++ others) := by
  revert hfire
  fun_cases State.fire c.shared smartRouting choice f <;> rintro ⟨⟩
  · rename_i id
    have hevent : (c.shared.tryRegister id).event = none := by
      unfold State.tryRegister
      split <;> rfl
    rw [hevent, toList_none, append_nil]
    exact h.tryRegister
  · rename_i id
    have hevent : (c.shared.tryReregister id).event = none := by
      unfold State.tryReregister
      split <;> rfl
    rw [hevent, toList_none, append_nil]
    exact h.tryReregister
  · rename_i member first hfirst hnone
    rw [toList_none, append_nil]
    have hempty : c.shared.connections = [] := by
      refine State.connections_of_random hfirst (fun hsmart hmember => ?_) hnone
      rw [hmember] at hok
      exact hok hsmart
    refine h.unlock rfl nofun fun _ id hactive => ?_
    rw [State.active_iff_mem, hempty] at hactive
    cases hactive
  · rw [toList_none, append_nil]
    exact h.getRandomConnection (State.active_of_random ‹_› ‹_›)
  · rename_i outcome
    refine h.completed fun hvalue => ?_
    cases outcome with
    | value => exact absurd rfl hvalue
    | exception e => exact hok

/-- When nothing is under way the listener is registered, unless there is no connection. -/
theorem registered (h : Kept events s []) (hactive : s.Active id) : s.Registered events := by
  by_cases hcell : s.listenerAddedConnectionId = -1
  · rcases h.vacant hcell with hnone | ⟨id', hid'⟩ | hrandom
    · exact absurd hactive (hnone id)
    · cases hid'
    · cases hrandom
  · obtain ⟨id', hid', ⟨hactive', hmem | hregistered⟩ | hmem⟩ := h.taken hcell
    · cases hmem
    · exact ⟨id', hid', hactive', hregistered⟩
    · cases hmem

end Kept

/-- In every state of a run in which registrations fail only on connections that are gone,
and the load balancer names a member while there are connections. -/
theorem kept_of_run {smartRouting : Bool} {events : List Event}
    {c : Config (State U) Unit Frame}
    (hrun : Run (machine U smartRouting) (Harmless smartRouting) ⟨{}, []⟩ events c) :
    Kept events c.shared c.frames := by
  refine hrun.frameInvariant (P := Kept) (fun hperm h => h.perm hperm) ?_ ?_ ?_
  · refine ⟨rfl, fun id hid => ?_, fun htaken => absurd rfl htaken, fun _ => .inl ?_⟩
    · cases hid
    · rintro id ⟨member, hmember⟩
      cases hmember
  · intro es c₁ f choice others threads e _ _ h hok hfire
    exact h.fire hok hfire
  · intro es c₁ choice e _ h _ hout
    exact h.outside hout

/-- In a run of harmless steps the listener is never lost: when no callback and no request is
under way and there is an active connection, it is registered on an active connection. -/
theorem listener_never_lost {smartRouting : Bool} {events : List Event}
    {c : Config (State U) Unit Frame}
    (hrun : Run (machine U smartRouting) (Harmless smartRouting) ⟨{}, []⟩ events c)
    (hquiet : c.frames = []) {id : ℕ} (hactive : c.shared.Active id) :
    c.shared.Registered events := by
  have h := kept_of_run hrun
  rw [hquiet] at h
  exact h.registered hactive

/-- The listener is registered on a connection, the connection is removed, and another one
takes its place. -/
theorem listener_never_lost_removed :
    ∃ events c, Run (machine ℕ true) (Harmless true) ⟨{}, []⟩ events c ∧ c.frames = [] ∧
      c.shared.Active 2 ∧ c.shared.Registered events := by
  have hexec : ∃ events c, (machine ℕ true).execAll (fun c mv => decide (Harmless true c mv))
      ⟨{}, []⟩ [.outside (.authenticated 0 1), .thread 0 .go, .thread 1 (.completed .value),
        .outside (.authenticated 1 2), .thread 2 .go, .outside (.closed 0 1), .thread 3 .go,
        .thread 3 (.random (some 1) (some 2)), .thread 3 .go, .thread 4 (.completed .value)] =
      some (events, c) ∧ c.frames = [] ∧ c.shared.activeConnections.lookup 1 = some 2 :=
    ⟨_, _, rfl, rfl, rfl⟩
  obtain ⟨events, c, hexec, hquiet, hlookup⟩ := hexec
  have hrun : Run (machine ℕ true) (Harmless true) ⟨{}, []⟩ events c :=
    (Run.of_execAll hexec).mono fun _ _ hok => of_decide_eq_true hok
  exact ⟨events, c, hrun, hquiet, ⟨1, hlookup⟩, listener_never_lost hrun hquiet ⟨1, hlookup⟩⟩

/-- The registration on the only connection fails, the connection stays open, and nothing is
left to happen. -/
theorem listener_lost :
    ∃ events c, Run (machine ℕ true) Always ⟨{}, []⟩ events c ∧ c.frames = [] ∧
      c.shared.Active 1 ∧ ¬ c.shared.Registered events := by
  have hexec : ∃ c, (machine ℕ true).execAll (fun _ _ => true) ⟨{}, []⟩
      [.outside (.authenticated 0 1), .thread 0 .go,
        .thread 1 (.completed (.exception (.other 0)))] = some ([], c) ∧ c.frames = [] ∧
      c.shared.activeConnections.lookup 0 = some 1 := ⟨_, rfl, rfl, rfl⟩
  obtain ⟨c, hexec, hquiet, hlookup⟩ := hexec
  refine ⟨[], c, (Run.of_execAll hexec).always, hquiet, ⟨0, hlookup⟩, ?_⟩
  rintro ⟨id, -, -, hregistered⟩
  cases hregistered

end HazelcastClient.Spi.ClusterView
