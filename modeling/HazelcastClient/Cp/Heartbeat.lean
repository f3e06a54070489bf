import HazelcastClient.Cp.SessionManager
import HazelcastClient.Interleaving.Machine
import Mathlib.Data.List.AList

/-!
# Heartbeats of the sessions of all CP groups

`proxy_session_manager` keeps the sessions of all groups in one map and sends heartbeats
for those in use. The continuation of a heartbeat invalidates the session when the server
says that it has expired, and so do the proxies; by then the group may have another
session.

Each section under the lock is one step, and so is each continuation. The count of a
session is changed after the lock has been given back, through a reference into the map;
`Entry.node` says which node of the map it refers to.
-/

namespace HazelcastClient.Cp

open Interleaving Option AList

structure Entry where
  node : ℕ
  state : SessionState
  deriving DecidableEq

/-- The session manager of all groups. `nodes` numbers the nodes of the map. -/
structure Sessions (G : Type) where
  running : Bool := true
  sessions : AList (fun _ : G => Entry) := ∅
  nodes : ℕ := 0
  scheduledHeartbeat : Bool := false

namespace Sessions

variable {G : Type} [DecidableEq G] (s : Sessions G) (group : G) (session : Option SessionState)

/-- What there is of a single group. The server numbers the next session `next`. -/
def manager (s : Sessions G) (group : G) (next : ℕ) : SessionManager :=
  ⟨s.running, (s.sessions.lookup group).map Entry.state, next⟩

def store (s : Sessions G) (group : G) : Option SessionState → Sessions G
  | none => { s with sessions := s.sessions.erase group }
  | some state =>
    match s.sessions.lookup group with
    | some entry => { s with sessions := s.sessions.insert group { entry with state := state } }
    | none =>
      { s with
        sessions := s.sessions.insert group ⟨s.nodes, state⟩
        nodes := s.nodes + 1 }

/-- The first session that is created schedules the heartbeats. -/
def getOrCreateSession (s : Sessions G) (group : G) (next : ℕ) (lookup : Lookup) :
    Except CpException (Sessions G) :=
  ((s.manager group next).getOrCreateSession lookup).map fun found =>
    { s.store group found.2.session with
      scheduledHeartbeat := s.scheduledHeartbeat || found.2.created != next }

/-- The count of the session in a node. A node that is gone leaves nothing to count. -/
def acquire (s : Sessions G) (group : G) (node : ℕ) (count : ℤ) : Sessions G :=
  match s.sessions.lookup group with
  | none => s
  | some entry =>
    if entry.node = node then s.store group (some (entry.state.acquire count)) else s

def releaseSession (s : Sessions G) (group : G) (sessionId count : ℤ) : Sessions G :=
  s.store group ((s.manager group 0).releaseSession sessionId count).session

def invalidateSession (s : Sessions G) (group : G) (sessionId : ℤ) : Sessions G :=
  s.store group ((s.manager group 0).invalidateSession sessionId).session

def inUse (s : Sessions G) : List (G × ℤ) :=
  (s.sessions.entries.filter fun entry => entry.2.state.isInUse).map fun entry =>
    (entry.1, entry.2.state.id)

theorem lookup_store :
    ((s.store group session).sessions.lookup group).map Entry.state = session := by
  cases session with
  | none => simp [store]
  | some state =>
    unfold store
    cases hlookup : s.sessions.lookup group with
    | none | some entry => simp

theorem lookup_store_of_ne {group other : G} (hne : other ≠ group) :
    (s.store group session).sessions.lookup other = s.sessions.lookup other := by
  cases session with
  | none => exact lookup_erase_ne hne
  | some state =>
    unfold store
    cases hlookup : s.sessions.lookup group with
    | none | some entry => exact lookup_insert_ne hne

/-- The sessions in use in `s` are all in `s'`. -/
def Keeps (s s' : Sessions G) : Prop :=
  ∀ group entry, s.sessions.lookup group = some entry → entry.state.isInUse = true →
    ∃ entry', s'.sessions.lookup group = some entry' ∧ entry'.state.id = entry.state.id

theorem Keeps.refl : s.Keeps s := fun _ entry h _ => ⟨entry, h, rfl⟩

theorem keeps_store {s : Sessions G} {group : G} {session : Option SessionState}
    (h : ∀ entry, s.sessions.lookup group = some entry → entry.state.isInUse = true →
      ∃ state, session = some state ∧ state.id = entry.state.id) :
    s.Keeps (s.store group session) := by
  intro other entry hlookup huse
  by_cases hother : other = group
  · subst hother
    obtain ⟨state, rfl, hid⟩ := h entry hlookup huse
    have hstored := s.lookup_store other (some state)
    rw [map_eq_some_iff] at hstored
    obtain ⟨entry', hentry', rfl⟩ := hstored
    exact ⟨entry', hentry', hid⟩
  · exact ⟨entry, by rw [lookup_store_of_ne s _ hother, hlookup], rfl⟩

theorem keeps_acquire (node : ℕ) (count : ℤ) : s.Keeps (s.acquire group node count) := by
  unfold acquire
  split
  · exact Keeps.refl s
  · rename_i entry hlookup
    split
    · refine keeps_store ?_
      intro entry' hlookup' _
      rw [hlookup] at hlookup'
      cases hlookup'
      exact ⟨_, rfl, rfl⟩
    · exact Keeps.refl s

theorem keeps_releaseSession (sessionId count : ℤ) :
    s.Keeps (s.releaseSession group sessionId count) := by
  refine keeps_store ?_
  intro entry hlookup _
  simp only [SessionManager.releaseSession, manager, hlookup, map_some]
  split
  · exact ⟨_, rfl, rfl⟩
  · exact ⟨_, rfl, rfl⟩

theorem keeps_getOrCreateSession {s s' : Sessions G} {group : G} {next : ℕ} {lookup : Lookup}
    (h : s.getOrCreateSession group next lookup = .ok s') : s.Keeps s' := by
  unfold getOrCreateSession at h
  cases hfound : (s.manager group next).getOrCreateSession lookup with
  | error e => simp [hfound, Except.map] at h
  | ok found =>
    simp only [hfound, Except.map, Except.ok.injEq] at h
    subst h
    refine keeps_store ?_
    intro entry hlookup huse
    have hvalid : entry.state.isValid lookup.now = true := by
      simp [SessionState.isValid, huse]
    have hsession : (s.manager group next).session = some entry.state := by
      simp [manager, hlookup]
    unfold SessionManager.getOrCreateSession at hfound
    split at hfound
    · cases hfound
    · simp only [hsession, hvalid, ↓reduceIte, Except.ok.injEq] at hfound
      subst hfound
      exact ⟨entry.state, hsession, rfl⟩

end Sessions

def cpGroupDestroyed : ServerError := .other 89

def ServerError.endsSession (error : ServerError) : Bool :=
  error = .sessionExpired || error = cpGroupDestroyed

namespace Heartbeat

/-- What is under way: an acquisition that holds a reference, a heartbeat. -/
inductive Frame (G : Type) where
  | acquire (group : G) (node : ℕ) (count : ℤ)
  | heartbeat (group : G) (sessionId : ℤ)

inductive Choice (G : Type) where
  | acquireSession (group : G) (next : ℕ) (lookup : Lookup) (count : ℤ)
  | releaseSession (group : G) (sessionId count : ℤ)
  | invalidateSession (group : G) (sessionId : ℤ)
  | tick
  | go
  | answer (response : Except ServerError Unit)

abbrev Effect (G : Type) := Interleaving.Effect (Sessions G) Unit (Frame G) Unit

variable {G : Type} [DecidableEq G]

def fire (s : Sessions G) : Choice G → Frame G → Option (Effect G)
  | .go, .acquire group node count => some { shared := s.acquire group node count }
  | .answer (.ok _), .heartbeat _ _ => some { shared := s }
  | .answer (.error error), .heartbeat group sessionId =>
    if error.endsSession then some { shared := s.invalidateSession group sessionId }
    else some { shared := s }
  | _, _ => none

def outside (s : Sessions G) : Choice G → Option (Effect G)
  | .acquireSession group next lookup count =>
    match s.getOrCreateSession group next lookup with
    | .error _ => some { shared := s }
    | .ok s' =>
      -- the reference to the session that has been found or created
      some
        { shared := s'
          spawned := (s'.sessions.lookup group).toList.map fun entry =>
            ⟨(), [.acquire group entry.node count]⟩ }
  | .releaseSession group sessionId count =>
    some { shared := s.releaseSession group sessionId count }
  | .invalidateSession group sessionId =>
    some { shared := s.invalidateSession group sessionId }
  | .tick =>
    if s.scheduledHeartbeat then
      some
        { shared := s
          spawned := s.inUse.map fun entry => ⟨(), [.heartbeat entry.1 entry.2]⟩ }
    else none
  | _ => none

def machine : Machine (Sessions G) Unit (Frame G) (Choice G) Unit where
  fire := fun s _ => fire s
  outside := outside

abbrev Config (G : Type) := Interleaving.Config (Sessions G) Unit (Frame G)

abbrev Move (G : Type) := Interleaving.Move (Frame G) (Choice G)

def invalidates : Move G → Option (G × ℤ)
  | .outside (.invalidateSession group sessionId) => some (group, sessionId)
  | .frame (.heartbeat group sessionId) (.answer (.error error)) =>
    if error.endsSession then some (group, sessionId) else none
  | _ => none

/-- A step invalidates a session, or it keeps all that are in use. -/
theorem step_cases {c c' : Config G} {mv : Move G} {ev : Option Unit}
    (h : Step machine c mv ev c') :
    (∃ group id, invalidates mv = some (group, id) ∧
      c'.shared.sessions = c.shared.sessions.erase group) ∨
    (invalidates mv = none ∧ c.shared.Keeps c'.shared) := by
  rcases h.inversion with
    ⟨f, choice, others, threads, e, rfl, hfire, hshared, -, -, -⟩ |
    ⟨choice, e, rfl, hout, hshared, -, -⟩
  · rw [hshared]
    revert hfire
    change fire c.shared choice f = some e → _
    fun_cases fire c.shared choice f <;> rintro ⟨⟩
    · exact .inr ⟨rfl, c.shared.keeps_acquire _ _ _⟩
    · exact .inr ⟨rfl, .refl _⟩
    · exact .inl ⟨_, _, if_pos ‹_›, rfl⟩
    · exact .inr ⟨if_neg ‹_›, .refl _⟩
  · rw [hshared]
    revert hout
    change outside c.shared choice = some e → _
    fun_cases outside c.shared choice <;> rintro ⟨⟩
    · exact .inr ⟨rfl, .refl _⟩
    · exact .inr ⟨rfl, Sessions.keeps_getOrCreateSession ‹_›⟩
    · exact .inr ⟨rfl, c.shared.keeps_releaseSession _ _ _⟩
    · exact .inl ⟨_, _, rfl, rfl⟩
    · exact .inr ⟨rfl, .refl _⟩

/-- An invalidation changes the map only if the session of the group is the one that it
names, and a session in use leaves the map only by an invalidation that names it. -/
structure RemovesNamed (c : Config G) (mv : Move G) (c' : Config G) : Prop where
  changed : ∀ group id, invalidates mv = some (group, id) →
    c'.shared.sessions ≠ c.shared.sessions →
    ∃ entry, c.shared.sessions.lookup group = some entry ∧ entry.state.id = id
  kept : ∀ group entry, c.shared.sessions.lookup group = some entry →
    entry.state.isInUse = true → invalidates mv ≠ some (group, entry.state.id) →
    ∃ entry', c'.shared.sessions.lookup group = some entry' ∧
      entry'.state.id = entry.state.id

/-- An invalidation comes while the session that it names is the one of its group, or
while the group has none. -/
def Timely (c : Config G) (mv : Move G) : Prop :=
  ∀ group id, invalidates mv = some (group, id) →
    ∀ entry, c.shared.sessions.lookup group = some entry → entry.state.id = id

section Timely

variable {c c' : Config G} {mv : Move G} {ev : Option Unit}

theorem removesNamed_of_timely (hstep : Step machine c mv ev c') (htimely : Timely c mv) :
    RemovesNamed c mv c' := by
  rcases step_cases hstep with ⟨group, id, hinvalidates, hsessions⟩ | ⟨hnone, hkeeps⟩
  · constructor
    · intro group' id' hinvalidates' hchanged
      rw [hinvalidates, Option.some.injEq, Prod.mk.injEq] at hinvalidates'
      obtain ⟨rfl, rfl⟩ := hinvalidates'
      cases hlookup : c.shared.sessions.lookup group with
      | none =>
        -- nothing to erase
        refine absurd ?_ hchanged
        rw [hsessions]
        ext1
        exact List.kerase_of_notMem_keys (lookup_eq_none.mp hlookup)
      | some entry => exact ⟨entry, rfl, htimely group id hinvalidates entry hlookup⟩
    · intro group' entry hlookup _ hother
      have hne : group' ≠ group := by
        rintro rfl
        rw [htimely group' id hinvalidates entry hlookup] at hother
        exact hother hinvalidates
      exact ⟨entry, by rw [hsessions, lookup_erase_ne hne, hlookup], rfl⟩
  · constructor
    · intro group id hinvalidates
      rw [hnone] at hinvalidates
      cases hinvalidates
    · intro group entry hlookup huse _
      exact hkeeps group entry hlookup huse

/-- Exactly the invalidations that come in time remove what they name. -/
theorem removesNamed_iff_timely (hstep : Step machine c mv ev c') :
    RemovesNamed c mv c' ↔ Timely c mv := by
  refine ⟨fun hremoves group id hinvalidates entry hlookup => ?_, removesNamed_of_timely hstep⟩
  rcases step_cases hstep with ⟨group', id', hinvalidates', hsessions⟩ | ⟨hnone, -⟩
  · rw [hinvalidates, Option.some.injEq, Prod.mk.injEq] at hinvalidates'
    obtain ⟨rfl, rfl⟩ := hinvalidates'
    have hchanged : c'.shared.sessions ≠ c.shared.sessions := by
      intro hsame
      rw [← hsame, hsessions, lookup_erase] at hlookup
      cases hlookup
    obtain ⟨entry', hlookup', hid⟩ := hremoves.changed group id hinvalidates hchanged
    rw [hlookup] at hlookup'
    cases hlookup'
    exact hid
  · rw [hnone] at hinvalidates
    cases hinvalidates

/-- In a run whose invalidations come in time, a session that is in use is kept until one of
them names it. -/
theorem session_kept {events : List Unit} {group : G} {id : ℤ}
    (hrun : Run machine (fun c mv => Timely c mv ∧ invalidates mv ≠ some (group, id) ∧
      ∀ entry, c.shared.sessions.lookup group = some entry → entry.state.isInUse = true)
      c events c')
    (h : ∃ entry, c.shared.sessions.lookup group = some entry ∧ entry.state.id = id) :
    ∃ entry, c'.shared.sessions.lookup group = some entry ∧ entry.state.id = id := by
  induction hrun with
  | refl => exact h
  | tail _ hok hstep ih =>
    obtain ⟨htimely, hother, huse⟩ := hok
    obtain ⟨entry, hlookup, rfl⟩ := ih
    have hremoves := removesNamed_of_timely hstep htimely
    exact hremoves.kept group entry hlookup (huse entry hlookup) hother

end Timely

/-- A session in use that is invalidated under its own id. -/
theorem removesNamed_iff_timely_own :
    ∃ c c' : Config Unit, c.shared.sessions.lookup () = some ⟨0, ⟨7, 5, 0, 1⟩⟩ ∧
      Step machine c (.outside (.invalidateSession () 7)) none c' ∧
      RemovesNamed c (.outside (.invalidateSession () 7)) c' := by
  let s : Sessions Unit := { sessions := singleton () ⟨0, ⟨7, 5, 0, 1⟩⟩ }
  have hstep : Step machine ⟨s, []⟩ (.outside (.invalidateSession () 7)) none
      ⟨s.invalidateSession () 7, []⟩ :=
    Step.of_exec (p := .outside (.invalidateSession () 7)) rfl
  have htimely : Timely ⟨s, []⟩ (.outside (.invalidateSession () 7)) := by
    intro group id hid entry hlookup
    cases hid
    cases hlookup
    rfl
  exact ⟨_, _, rfl, hstep, (removesNamed_iff_timely hstep).mpr htimely⟩

/-! ### Two generations -/

/-- A session that is acquired again and again: `receivedAt` and `now` are far apart, so
that one that nobody uses is replaced. -/
def acquisition (next : ℕ) (now : ℤ) : Choice Unit :=
  .acquireSession () next ⟨now, .ok ⟨0, 5, now⟩⟩ 1

/-- Session 0 is acquired, a heartbeat is sent for it, and it is released. Session 1
replaces it and is acquired. -/
def twoGenerations : List (Pick (Choice Unit)) :=
  [.outside (acquisition 0 0), .thread 0 .go, .outside .tick,
    .outside (.releaseSession () 0 1), .outside (acquisition 1 1000000000), .thread 2 .go]

theorem twoGenerations_reached : ∃ events c, Run machine Always ⟨{}, []⟩ events c ∧
    (c.shared.sessions.lookup ()).any (fun entry => entry.state.id == 1 && entry.state.isInUse) ∧
    (machine.exec c (.thread 1 (.answer (.error .sessionExpired)))).any (fun r =>
      invalidates r.1 == some ((), 0) && (r.2.2.shared.sessions.lookup ()).isNone) := by
  have hexec : (machine.execAll (fun _ _ => true) ⟨{}, []⟩ twoGenerations).any (fun r =>
      (r.2.shared.sessions.lookup ()).any
        (fun entry => entry.state.id == 1 && entry.state.isInUse) &&
      (machine.exec r.2 (.thread 1 (.answer (.error .sessionExpired)))).any fun r =>
        invalidates r.1 == some ((), 0) && (r.2.2.shared.sessions.lookup ()).isNone) = true := by
    decide +kernel
  obtain ⟨events, c, hrun, htest⟩ := Run.of_execAll_any hexec
  rw [Bool.and_eq_true] at htest
  exact ⟨events, c, hrun.always, htest.1, htest.2⟩

/-- The heartbeat of session 0 is answered late and removes session 1, which is in use. -/
theorem heartbeat_removes_successor : ∃ events c mv ev c' entry,
    Run machine Always (⟨{}, []⟩ : Config Unit) events c ∧ Step machine c mv ev c' ∧
    invalidates mv = some ((), 0) ∧ c.shared.sessions.lookup () = some entry ∧
    entry.state.id = 1 ∧ entry.state.isInUse = true ∧ c'.shared.sessions.lookup () = none ∧
    ¬ RemovesNamed c mv c' := by
  obtain ⟨events, c, hrun, hstored, hlast⟩ := twoGenerations_reached
  obtain ⟨mv, ev, c', hstep, htest⟩ := Step.of_exec_any hlast
  rw [Bool.and_eq_true, beq_iff_eq, isNone_iff_eq_none] at htest
  rw [any_eq_true] at hstored
  obtain ⟨entry, hlookup, hentry⟩ := hstored
  rw [Bool.and_eq_true, beq_iff_eq] at hentry
  refine ⟨events, c, mv, ev, c', entry, hrun, hstep, htest.1, hlookup, hentry.1, hentry.2,
    htest.2, ?_⟩
  intro hremoves
  obtain ⟨entry', hlookup', -⟩ := hremoves.kept () entry hlookup hentry.2
    (by rw [htest.1, hentry.1]; decide)
  rw [htest.2] at hlookup'
  cases hlookup'

end Heartbeat

end HazelcastClient.Cp
