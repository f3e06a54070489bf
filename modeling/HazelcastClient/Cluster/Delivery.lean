import HazelcastClient.Cluster.Membership
import HazelcastClient.Interleaving.Machine

/-!
# Order of delivery of membership events

Member lists arrive on the threads of the event executor. `handle_event` swaps the
snapshot and computes the events under `cluster_view_lock_`, and fires them later
under `listeners_lock_`, so that two calls may fire in the opposite order.

A call that has swapped a snapshot carries the number of the swap with its events.
The source has no such number; it serves to say which events come first. As long as
calls fire in the order of their swaps, what the listener has received together with
the events in flight leads to the current list (`InFlight`).
-/

namespace HazelcastClient.Cluster

open Replay Interleaving List Event

variable {U A : Type}

structure Service (U A : Type) where
  view : View U A := none
  /-- What a listener has received. -/
  received : List (Event U A) := []
  /-- The number of updates so far. -/
  updates : ℕ := 0

/-- The places of `handle_event`: the first load of the snapshot; the locked section for
the first list; the locked section for an update; `fire_events`. -/
inductive Place (U A : Type) where
  | load
  | firstList
  | update
  | fire (number : ℕ) (events : List (Event U A))

/-- A running `handle_event`. -/
structure Frame (U A : Type) where
  version : ℤ
  infos : List (Member U A)
  place : Place U A

section Steps

variable [DecidableEq U]

/-- The comparison of the versions before the lock is taken. -/
def checkVersion (s : Service U A) (current : Snapshot U A) (f : Frame U A) : Frame U A :=
  if current.version ≤ f.version then { f with place := .update }
  else { f with place := .fire s.updates [] }

/-- One step of `handle_event`. The first list is stored and announced while the lock of
the view is held, and no other call can announce anything in between. -/
def fire (s : Service U A) (f : Frame U A) : Effect (Service U A) Unit (Frame U A) Unit :=
  match f.place with
  | .load =>
    match s.view with
    | none => { shared := s, next := [{ f with place := .firstList }] }
    | some current => { shared := s, next := [checkVersion s current f] }
  | .firstList =>
    match s.view with
    | none =>
      let snapshot := createSnapshot f.version f.infos
      { shared := { s with
          view := some snapshot
          received := s.received ++ [.initial snapshot.members.toList] } }
    | some current => { shared := s, next := [checkVersion s current f] }
  | .update =>
    if s.view.version ≤ f.version then
      let snapshot := createSnapshot f.version f.infos
      { shared := { s with view := some snapshot, updates := s.updates + 1 }
        next := [{ f with
          place := .fire s.updates
            (detectMembershipEvents s.view.members snapshot.members) }] }
    else { shared := s, next := [{ f with place := .fire s.updates [] }] }
  | .fire _ events => { shared := { s with received := s.received ++ events } }

/-- The service; the environment calls `handle_event` with a version and a list. -/
def service : Machine (Service U A) Unit (Frame U A) (Option (ℤ × List (Member U A))) Unit where
  fire := fun s _ _ f => some (fire s f)
  outside := fun s choice =>
    choice.map fun call => { shared := s, spawned := [⟨(), [⟨call.1, call.2, .load⟩]⟩] }

def start : Config (Service U A) Unit (Frame U A) := ⟨{}, []⟩

end Steps

def Frame.pending (f : Frame U A) : Option (ℕ × List (Event U A)) :=
  match f.place with
  | .fire number (e :: events) => some (number, e :: events)
  | _ => none

def InOrder (c : Config (Service U A) Unit (Frame U A)) :
    Move (Frame U A) (Option (ℤ × List (Member U A))) → Prop
  | .frame f _ => ∀ p ∈ f.pending, ∀ g ∈ c.frames, ∀ q ∈ g.pending, p.1 ≤ q.1
  | .outside _ => True

instance (c : Config (Service U A) Unit (Frame U A))
    (mv : Move (Frame U A) (Option (ℤ × List (Member U A)))) : Decidable (InOrder c mv) :=
  match mv with
  | .frame f _ =>
    inferInstanceAs (Decidable (∀ p ∈ f.pending, ∀ g ∈ c.frames, ∀ q ∈ g.pending, p.1 ≤ q.1))
  | .outside _ => inferInstanceAs (Decidable True)

section Delivery

variable [DecidableEq U] (s : Service U A)

inductive Outcome (s : Service U A) (f : Frame U A) :
    Service U A → List (Frame U A) → Prop
  | quiet (g : Frame U A) (hf : f.pending = none) (hg : g.pending = none) : Outcome s f s [g]
  | done (hf : f.pending = none) : Outcome s f s []
  | firstList (snapshot : Snapshot U A) (hf : f.pending = none) (h : s.view = none) :
      Outcome s f { s with
        view := some snapshot
        received := s.received ++ [.initial snapshot.members.toList] } []
  | update (snapshot : Snapshot U A) (g : Frame U A) (hf : f.pending = none)
      (hg : g.place = .fire s.updates
        (detectMembershipEvents s.view.members snapshot.members)) :
      Outcome s f { s with view := some snapshot, updates := s.updates + 1 } [g]
  | fire (number : ℕ) (events : List (Event U A)) (hf : f.pending = some (number, events)) :
      Outcome s f { s with received := s.received ++ events } []

omit [DecidableEq U] in
theorem checkVersion_pending (current : Snapshot U A) (f : Frame U A) :
    (checkVersion s current f).pending = none := by
  unfold checkVersion
  split <;> rfl

theorem Outcome.of_fire (f : Frame U A) :
    Outcome s f (Cluster.fire s f).shared (Cluster.fire s f).next ∧
      (Cluster.fire s f).spawned = [] := by
  obtain ⟨version, infos, place⟩ := f
  cases place with
  | load =>
    cases hview : s.view with
    | none =>
      simp only [Cluster.fire, hview]
      exact ⟨.quiet _ rfl rfl, trivial⟩
    | some current =>
      simp only [Cluster.fire, hview]
      exact ⟨.quiet _ rfl (checkVersion_pending _ _ _), trivial⟩
  | firstList =>
    cases hview : s.view with
    | none =>
      simp only [Cluster.fire, hview]
      exact ⟨.firstList _ rfl hview, trivial⟩
    | some current =>
      simp only [Cluster.fire, hview]
      exact ⟨.quiet _ rfl (checkVersion_pending _ _ _), trivial⟩
  | update =>
    simp only [Cluster.fire]
    split
    · exact ⟨.update _ _ rfl rfl, rfl⟩
    · exact ⟨.quiet _ rfl rfl, rfl⟩
  | fire number events =>
    cases events with
    | nil =>
      simp only [Cluster.fire, append_nil]
      exact ⟨.done rfl, trivial⟩
    | cons e events => exact ⟨.fire number (e :: events) rfl, rfl⟩

/-- The listener and the events in flight: `queue` lists what the calls have still to
fire, in the order of the updates, and after it the listener would know the current
list. -/
structure InFlight (s : Service U A) (frames : List (Frame U A))
    (queue : List (ℕ × List (Event U A))) : Prop where
  perm : (frames.filterMap Frame.pending).Perm queue
  sorted : queue.Pairwise fun p q => p.1 < q.1
  bounded : ∀ p ∈ queue, p.1 < s.updates
  replays : replay ∅ ((s.received ++ queue.flatMap Prod.snd).map change) =
    s.view.members.uuids
  legal : Legal ∅ ((s.received ++ queue.flatMap Prod.snd).map change)
  fresh : s.view = none → s.received = [] ∧ queue = []

namespace InFlight

variable {s s' : Service U A} {frames : List (Frame U A)} {f : Frame U A}
  {next : List (Frame U A)} {queue : List (ℕ × List (Event U A))}

theorem of_perm (h : InFlight s frames queue) {frames' : List (Frame U A)}
    (hp : (frames'.filterMap Frame.pending).Perm (frames.filterMap Frame.pending)) :
    InFlight s frames' queue :=
  { h with perm := hp.trans h.perm }

section

variable (h : InFlight s (f :: frames) queue)

include h

theorem first (hf : f.pending = none) (hview : s.view = none) (snapshot : Snapshot U A) :
    InFlight { s with
      view := some snapshot
      received := s.received ++ [.initial snapshot.members.toList] } frames queue := by
  obtain ⟨hreceived, rfl⟩ := h.fresh hview
  have hperm := h.perm
  rw [filterMap_cons_none hf] at hperm
  refine ⟨hperm, h.sorted, h.bounded, ?_, ?_, fun hnone => by cases hnone⟩
  · rw [hreceived]
    rfl
  · rw [hreceived]
    exact ⟨trivial, trivial⟩

/-- An update puts its events at the end of the queue. -/
theorem update (hf : f.pending = none) (snapshot : Snapshot U A) {g : Frame U A}
    (hg : g.place = .fire s.updates (detectMembershipEvents s.view.members snapshot.members)) :
    ∃ queue', InFlight { s with view := some snapshot, updates := s.updates + 1 }
      (g :: frames) queue' := by
  have hperm := h.perm
  rw [filterMap_cons_none hf] at hperm
  obtain ⟨hreplay, hlegal⟩ := detect_replay s.view.members snapshot.members
  set events := detectMembershipEvents s.view.members snapshot.members with hevents
  have hflat : ∀ q : List (ℕ × List (Event U A)),
      q.flatMap Prod.snd = queue.flatMap Prod.snd ++ events →
      replay ∅ ((s.received ++ q.flatMap Prod.snd).map change) = snapshot.members.uuids ∧
        Legal ∅ ((s.received ++ q.flatMap Prod.snd).map change) := by
    intro q hq
    rw [hq, ← append_assoc, map_append, replay_append, legal_append, h.replays]
    exact ⟨hreplay, h.legal, hlegal⟩
  cases hcase : events with
  | nil =>
    have hpending : g.pending = none := by
      rw [Frame.pending, hg, hcase]
    obtain ⟨hr, hl⟩ := hflat queue (by rw [hcase, append_nil])
    refine ⟨queue, ?_, h.sorted, fun p hp => (h.bounded p hp).trans (Nat.lt_succ_self _),
      hr, hl, fun hnone => by cases hnone⟩
    rwa [filterMap_cons_none hpending]
  | cons e rest =>
    have hpending : g.pending = some (s.updates, events) := by
      rw [Frame.pending, hg, hcase]
    obtain ⟨hr, hl⟩ := hflat (queue ++ [(s.updates, events)]) (by simp)
    refine ⟨queue ++ [(s.updates, events)], ?_, ?_, ?_, hr, hl, fun hnone => by cases hnone⟩
    · rw [filterMap_cons_some hpending]
      exact (hperm.cons _).trans (perm_append_singleton _ _).symm
    · refine pairwise_append.mpr ⟨h.sorted, pairwise_singleton _ _, ?_⟩
      intro p hp q hq
      rw [mem_singleton.mp hq]
      exact h.bounded p hp
    · intro p hp
      rcases mem_append.mp hp with hp | hp
      · exact (h.bounded p hp).trans (Nat.lt_succ_self _)
      · rw [mem_singleton.mp hp]
        exact Nat.lt_succ_self _

/-- A call that fires first has the events at the head of the queue. -/
theorem deliver {number : ℕ} {events : List (Event U A)} (hf : f.pending = some (number, events))
    (hfirst : ∀ q ∈ queue, number ≤ q.1) :
    ∃ queue', InFlight { s with received := s.received ++ events } frames queue' := by
  have hperm := h.perm
  rw [filterMap_cons_some hf] at hperm
  have hmem : (number, events) ∈ queue := hperm.mem_iff.mp mem_cons_self
  cases queue with
  | nil => cases hmem
  | cons p queue =>
    obtain ⟨hhead, hsorted⟩ := pairwise_cons.mp h.sorted
    have hp : p = (number, events) := by
      rcases mem_cons.mp hmem with heq | htail
      · exact heq.symm
      · have hlt := hhead _ htail
        have hle := hfirst p mem_cons_self
        omega
    subst hp
    refine ⟨queue, hperm.cons_inv, hsorted,
      fun q hq => h.bounded q (mem_cons_of_mem _ hq), ?_, ?_, ?_⟩
    · simpa using h.replays
    · simpa using h.legal
    · intro hnone
      obtain ⟨-, hnil⟩ := h.fresh hnone
      cases hnil

theorem step (ho : Outcome s f s' next)
    (hfirst : ∀ p, f.pending = some p → ∀ q ∈ queue, p.1 ≤ q.1) :
    ∃ queue', InFlight s' (next ++ frames) queue' := by
  cases ho with
  | quiet g hf hg =>
    refine ⟨queue, h.of_perm ?_⟩
    rw [singleton_append, filterMap_cons_none hg, filterMap_cons_none hf]
  | done hf =>
    refine ⟨queue, h.of_perm ?_⟩
    rw [nil_append, filterMap_cons_none hf]
  | firstList snapshot hf hview => exact ⟨queue, h.first hf hview snapshot⟩
  | update snapshot g hf hg => exact h.update hf snapshot hg
  | fire number events hf => exact h.deliver hf (hfirst _ hf)

end

theorem run {c : Config (Service U A) Unit (Frame U A)} {events : List Unit}
    (h : Run service InOrder start events c) : ∃ queue, InFlight c.shared c.frames queue := by
  refine h.frameInvariant (P := fun _ s frames => ∃ queue, InFlight s frames queue) ?_ ?_ ?_ ?_
  · rintro es s l l' hp ⟨queue, hq⟩
    exact ⟨queue, hq.of_perm (hp.symm.filterMap _)⟩
  · exact ⟨[], List.Perm.nil, List.Pairwise.nil, fun p hp => (by cases hp), rfl, trivial,
      fun _ => ⟨rfl, rfl⟩⟩
  · rintro es c₁ f choice others threads e - hframes ⟨queue, hq⟩ hok he
    obtain ⟨ho, hspawned⟩ := Outcome.of_fire c₁.shared f
    obtain rfl : Cluster.fire c₁.shared f = e := Option.some.inj he
    rw [Effect.spawnedFrames, hspawned, flatMap_nil, append_nil]
    refine hq.step ho fun p hp q hmem => ?_
    -- an entry of the queue belongs to one of the calls
    obtain ⟨g, hg, hpending⟩ := mem_filterMap.mp (hq.perm.mem_iff.mpr hmem)
    exact hok p hp g (hframes.mem_iff.mpr hg) q hpending
  · rintro es c₁ choice e - ⟨queue, hq⟩ - he
    obtain ⟨call, -, rfl⟩ := Option.map_eq_some_iff.mp he
    refine ⟨queue, hq.of_perm ?_⟩
    change (List.filterMap _ (_ ++ [_])).Perm _
    rw [filterMap_append]
    exact List.Perm.of_eq (append_nil _)

end InFlight

/-- When the calls fire their events in the order of their updates, a listener knows the
current members whenever no call is in progress, and it hears that a member has left only
while it knows the member. -/
theorem listener_in_order {c : Config (Service U A) Unit (Frame U A)} {events : List Unit}
    (h : Run service InOrder start events c) :
    (c.frames = [] →
      replay ∅ (c.shared.received.map change) = c.shared.view.members.uuids) ∧
    ∀ before m members after, c.shared.received = before ++ .left m members :: after →
      m.uuid ∈ replay ∅ (before.map change) := by
  obtain ⟨queue, hq⟩ := InFlight.run h
  constructor
  · intro hdone
    have hnil : queue = [] := by
      have hperm := hq.perm
      rw [hdone] at hperm
      exact hperm.symm.eq_nil
    simpa [hnil] using hq.replays
  · intro before m members after hreceived
    have hlegal := hq.legal
    rw [hreceived, append_assoc, map_append, cons_append, map_cons] at hlegal
    exact hlegal.fits

/-- The first list is empty; one call brings a member and another takes it away. Both
have updated the list when the thread `first` fires its events, and then `second`. -/
def crossingPicks (first second : ℕ) : List (Pick (Option (ℤ × List (Member ℕ ℕ)))) :=
  [.outside (some (1, [])), .thread 0 none, .thread 0 none,
    .outside (some (2, [⟨7, 0, []⟩])), .outside (some (3, [])), .thread 1 none, .thread 1 none,
    .thread 2 none, .thread 2 none, .thread first none, .thread second none]

/-- The call with the newer list fires first: the listener hears that the member has
left, then that it has joined, and keeps a member that is not in the list. -/
theorem listener_out_of_order :
    ∃ events c, Run (service (U := ℕ) (A := ℕ)) Always start events c ∧ c.frames = [] ∧
      c.shared.received.map change = [.reset ∅, .remove 7, .add 7] ∧
      replay ∅ (c.shared.received.map change) ≠ c.shared.view.members.uuids := by
  have hexec : ∃ events c, (service (U := ℕ) (A := ℕ)).execAll (fun _ _ => true) start
      (crossingPicks 2 1) = some (events, c) ∧ c.frames = [] ∧
      c.shared.received.map change = [.reset ∅, .remove 7, .add 7] ∧
      c.shared.view.members.uuids = ∅ := ⟨_, _, rfl, rfl, rfl, rfl⟩
  obtain ⟨events, c, hexec, hdone, hreceived, huuids⟩ := hexec
  refine ⟨events, c, (Run.of_execAll hexec).always, hdone, hreceived, ?_⟩
  rw [hreceived, huuids]
  decide

/-- The same calls with their events in order. -/
theorem listener_in_order_crossing :
    ∃ events c, Run (service (U := ℕ) (A := ℕ)) InOrder start events c ∧ c.frames = [] ∧
      c.shared.received.map change = [.reset ∅, .add 7, .remove 7] ∧
      replay ∅ (c.shared.received.map change) = c.shared.view.members.uuids := by
  have hexec : ∃ events c, (service (U := ℕ) (A := ℕ)).execAll
      (fun c mv => decide (InOrder c mv)) start (crossingPicks 1 2) = some (events, c) ∧
      c.frames = [] ∧ c.shared.received.map change = [.reset ∅, .add 7, .remove 7] :=
    ⟨_, _, rfl, rfl, rfl⟩
  obtain ⟨events, c, hexec, hdone, hreceived⟩ := hexec
  have hrun : Run (service (U := ℕ) (A := ℕ)) InOrder start events c :=
    (Run.of_execAll hexec).mono fun _ _ hok => of_decide_eq_true hok
  exact ⟨events, c, hrun, hdone, hreceived, (listener_in_order hrun).1 hdone⟩

end Delivery

end HazelcastClient.Cluster
