import HazelcastClient.NearCache.Operations

/-!
# The near cache of a replicated map

`ReplicatedMapImpl` keeps no marks. `get_data` looks the key up, reads it from a member and
puts what it has read into the cache, in a continuation. In between the key may change on
the members and the invalidation of the change may be processed; then the cache gets a value
that was read before.

`changes key` counts the changes of a key on the members, a record remembers how many of
them its read has seen, and `processed key` is the last change whose invalidation has been
processed.
-/

namespace HazelcastClient.NearCache.ReplicatedMap

open Interleaving Function

structure State (K V : Type) where
  store : K → Option (Record V) := fun _ => none
  /-- The map on the members. -/
  server : K → Option V
  changes : K → ℕ := fun _ => 0
  processed : K → ℕ := fun _ => 0

/-- `get_data`. -/
inductive Get (V : Type) where
  | lookup
  | expire
  | remoteRead
  | put (record : Record V)
  | invalidate
  deriving DecidableEq

/-- What is under way: `get_data`, `put_data` or `remove_data`, `clear`, and the handling of
an event. -/
inductive Frame (K V : Type) where
  | get (key : K) (pc : Get V)
  | write (key : K)
  | writeInvalidate (key : K)
  | clear
  | clearCache
  | handleEntry (key : K)
  | handleClearAll
  deriving DecidableEq

/-- `failed` stands for an exception of a request, when it is sent or later. An invalidation
reports a change of its key, a clear one of each key. -/
inductive Choice (K V : Type) where
  | go
  | expired
  | full
  | failed
  | report (change : ℕ)
  | reportAll (changes : K → ℕ)
  | get (key : K)
  | write (key : K)
  | clear
  | entryEvent (key : K)
  | clearAllEvent
  | change (key : K) (value : Option V)
  | evict (key : K)

abbrev Effect (K V : Type) := Interleaving.Effect (State K V) Unit (Frame K V) Unit

namespace State

variable {K V : Type} [DecidableEq K]

def putRecord (s : State K V) (key : K) (record : Record V) : State K V :=
  { s with store := update s.store key (some record) }

def removeRecord (s : State K V) (key : K) : State K V :=
  { s with store := update s.store key none }

/-- `near_cache_->invalidate`, for a change that has happened. -/
def invalidate (s : State K V) (key : K) (change : ℕ) : State K V :=
  { s.removeRecord key with
    processed := update s.processed key (max (s.processed key) change) }

/-- `near_cache_->clear`; only changes that have happened are reported. -/
def clearCache (s : State K V) (changes : K → ℕ) : State K V :=
  { s with
    store := fun _ => none
    processed := fun key => max (s.processed key) (min (changes key) (s.changes key)) }

def change (s : State K V) (key : K) (value : Option V) : State K V :=
  { s with
    server := update s.server key value
    changes := update s.changes key (s.changes key + 1) }

/-- An invalidation reports a change that has happened before. -/
def fireInvalidate (s : State K V) (key : K) : Choice K V → Option (Effect K V)
  | .report change => if change ≤ s.changes key then some { shared := s.invalidate key change }
      else none
  | _ => none

def fireClear (s : State K V) : Choice K V → Option (Effect K V)
  | .reportAll changes => some { shared := s.clearCache changes }
  | _ => none

/-- One step of `get_data`. A member without a value for the key fills nothing. A full store
without eviction does not take a new key. -/
def fireGet (s : State K V) (choice : Choice K V) (key : K) : Get V → Option (Effect K V)
  | .lookup =>
    match s.store key, choice with
    | none, _ => some { shared := s, next := [.get key .remoteRead] }
    | some _, .expired => some { shared := s, next := [.get key .expire] }
    | some _, _ => some { shared := s }
  | .expire => some { shared := s.removeRecord key, next := [.get key .remoteRead] }
  | .remoteRead =>
    match choice, s.server key with
    | .failed, _ => some { shared := s, next := [.get key .invalidate] }
    | _, none => some { shared := s }
    | _, some value => some { shared := s, next := [.get key (.put ⟨some value, s.changes key⟩)] }
  | .put record =>
    match choice with
    | .full => if s.store key = none then some { shared := s } else none
    | _ => some { shared := s.putRecord key record }
  | .invalidate => some { shared := s.removeRecord key }

/-- One step of a thread. A write or a clear that cannot be sent invalidates as well. -/
def fire (s : State K V) (choice : Choice K V) : Frame K V → Option (Effect K V)
  | .get key pc => s.fireGet choice key pc
  | .write key => some { shared := s, next := [.writeInvalidate key] }
  | .writeInvalidate key => s.fireInvalidate key choice
  | .clear => some { shared := s, next := [.clearCache] }
  | .clearCache => s.fireClear choice
  | .handleEntry key => s.fireInvalidate key choice
  | .handleClearAll => s.fireClear choice

def outside (s : State K V) : Choice K V → Option (Effect K V)
  | .get key => some { shared := s, spawned := [⟨(), [.get key .lookup]⟩] }
  | .write key => some { shared := s, spawned := [⟨(), [.write key]⟩] }
  | .clear => some { shared := s, spawned := [⟨(), [.clear]⟩] }
  | .entryEvent key => some { shared := s, spawned := [⟨(), [.handleEntry key]⟩] }
  | .clearAllEvent => some { shared := s, spawned := [⟨(), [.handleClearAll]⟩] }
  | .change key value => some { shared := s.change key value }
  | .evict key => some { shared := s.removeRecord key }
  | _ => none

end State

variable {K V : Type} [DecidableEq K] {choice : Choice K V} {key : K} {e : Effect K V}
  {record : Record V}

def machine : Machine (State K V) Unit (Frame K V) (Choice K V) Unit where
  fire := fun s _ => s.fire
  outside := State.outside

abbrev Config (K V : Type) := Interleaving.Config (State K V) Unit (Frame K V)

abbrev Move (K V : Type) := Interleaving.Move (Frame K V) (Choice K V)

def start (server : K → Option V) : Config K V := ⟨{ server := server }, []⟩

/-- No value in the cache was read before a change whose invalidation has been processed. -/
def NoOutdated (s : State K V) : Prop :=
  ∀ key record, s.store key = some record → s.processed key ≤ record.version

/-- What a get stores has been read after the last change of the key whose invalidation has
been processed. -/
def Fresh (c : Config K V) : Move K V → Prop
  | .frame (.get _ (.put _)) .full => True
  | .frame (.get key (.put record)) _ => c.shared.processed key ≤ record.version
  | _ => True

/-- Every record was there before, and nothing has been processed for its key. -/
def Shrinks (s s' : State K V) : Prop :=
  ∀ key record, s'.store key = some record →
    s.store key = some record ∧ s'.processed key = s.processed key

namespace Shrinks

variable {s s' : State K V} {choice : Choice K V} {e : Effect K V}

omit [DecidableEq K] in
theorem noOutdated (h : Shrinks s s') (hs : NoOutdated s) : NoOutdated s' := by
  intro key record hrecord
  obtain ⟨hold, hprocessed⟩ := h key record hrecord
  rw [hprocessed]
  exact hs key record hold

omit [DecidableEq K] in
theorem refl (s : State K V) : Shrinks s s := fun _ _ h => ⟨h, rfl⟩

theorem removeRecord (s : State K V) (key : K) : Shrinks s (s.removeRecord key) := by
  intro key' record hrecord
  by_cases hkey : key' = key
  · simp [State.removeRecord, hkey] at hrecord
  · exact ⟨by simpa [State.removeRecord, hkey] using hrecord, rfl⟩

theorem invalidate (s : State K V) (key : K) (change : ℕ) :
    Shrinks s (s.invalidate key change) := by
  intro key' record hrecord
  obtain ⟨hold, -⟩ := removeRecord s key key' record hrecord
  refine ⟨hold, ?_⟩
  by_cases hkey : key' = key
  · simp [State.invalidate, State.removeRecord, hkey] at hrecord
  · simp [State.invalidate, State.removeRecord, hkey]

omit [DecidableEq K] in
theorem clearCache (s : State K V) (changes : K → ℕ) : Shrinks s (s.clearCache changes) := by
  intro key record hrecord
  cases hrecord

theorem of_fireInvalidate {key : K} (h : s.fireInvalidate key choice = some e) :
    Shrinks s e.shared := by
  unfold State.fireInvalidate at h
  split at h
  · split at h
    · cases h
      exact invalidate s key _
    · cases h
  · cases h

omit [DecidableEq K] in
theorem of_fireClear (h : s.fireClear choice = some e) :
    Shrinks s e.shared := by
  unfold State.fireClear at h
  split at h
  · cases h
    exact clearCache s _
  · cases h

theorem of_outside (h : s.outside choice = some e) :
    Shrinks s e.shared := by
  revert h
  fun_cases State.outside s choice <;> rintro ⟨⟩
  case case6 => exact fun key record hrecord => ⟨hrecord, rfl⟩
  case case7 => exact removeRecord s _
  all_goals exact refl s

end Shrinks

variable {s : State K V}

theorem fireGet_cases {pc : Get V} (h : s.fireGet choice key pc = some e) :
    Shrinks s e.shared ∧ (∀ record, pc = .put record → choice = .full) ∨
      ∃ record, pc = .put record ∧ choice ≠ .full ∧ e.shared = s.putRecord key record := by
  revert h
  fun_cases State.fireGet s choice key pc <;> rintro ⟨⟩
  case case8 => exact .inl ⟨Shrinks.refl s, fun _ _ => rfl⟩
  case case10 record hfull => exact .inr ⟨record, rfl, hfull, rfl⟩
  case case4 | case11 => exact .inl ⟨Shrinks.removeRecord s key, nofun⟩
  all_goals exact .inl ⟨Shrinks.refl s, nofun⟩

theorem shrinks_of_fire {f : Frame K V} (hf : ∀ key pc, f ≠ .get key pc)
    (h : s.fire choice f = some e) : Shrinks s e.shared := by
  cases f with
  | get key pc => exact absurd rfl (hf key pc)
  | write key | clear =>
    cases h
    exact Shrinks.refl s
  | writeInvalidate key | handleEntry key => exact Shrinks.of_fireInvalidate h
  | clearCache | handleClearAll => exact Shrinks.of_fireClear h

theorem noOutdated_putRecord_iff (hs : NoOutdated s) :
    NoOutdated (s.putRecord key record) ↔ s.processed key ≤ record.version := by
  constructor
  · intro h
    exact h key record (update_self ..)
  · intro hfresh key' record' hrecord
    by_cases hkey : key' = key
    · subst hkey
      simp only [State.putRecord, update_self, Option.some.injEq] at hrecord
      exact hrecord ▸ hfresh
    · simp only [State.putRecord, update_of_ne hkey] at hrecord
      exact hs key' record' hrecord

omit [DecidableEq K] in
theorem fresh_put_iff {c : Config K V} (hchoice : choice ≠ .full) :
    Fresh c (.frame (.get key (.put record)) choice) ↔
      c.shared.processed key ≤ record.version := by
  cases choice with
  | full => exact absurd rfl hchoice
  | _ => exact Iff.rfl

/-- Exactly the steps that are fresh keep outdated values out of the cache. -/
theorem noOutdated_step_iff {c c' : Config K V} {mv : Move K V} {ev : Option Unit}
    (hs : NoOutdated c.shared) (hstep : Step machine c mv ev c') :
    NoOutdated c'.shared ↔ Fresh c mv := by
  rcases hstep.inversion with
    ⟨f, choice, others, threads, e, rfl, hfire, hshared, -, -, -⟩ |
    ⟨choice, e, rfl, hout, hshared, -, -⟩
  · rw [hshared]
    change c.shared.fire choice f = some e at hfire
    by_cases hget : ∃ key pc, f = .get key pc
    · obtain ⟨key, pc, rfl⟩ := hget
      rcases fireGet_cases hfire with ⟨hshrinks, hfull⟩ | ⟨record, rfl, hchoice, hput⟩
      · refine iff_of_true (hshrinks.noOutdated hs) ?_
        cases pc with
        | put record =>
          rw [hfull record rfl]
          trivial
        | lookup | expire | remoteRead | invalidate => trivial
      · rw [hput, noOutdated_putRecord_iff hs, fresh_put_iff hchoice]
    · have hf : ∀ key pc, f ≠ .get key pc := fun key pc h => hget ⟨key, pc, h⟩
      refine iff_of_true ((shrinks_of_fire hf hfire).noOutdated hs) ?_
      cases f with
      | get key pc => exact absurd rfl (hf key pc)
      | _ => trivial
  · rw [hshared]
    exact iff_of_true ((Shrinks.of_outside hout).noOutdated hs) trivial

/-- In a run of fresh steps the cache never holds an outdated value, and the first step that
is not fresh puts one there. -/
theorem replicatedMap_noOutdated {server : K → Option V} {events : List Unit} {c : Config K V}
    (hrun : Run machine Fresh (start server) events c) :
    NoOutdated c.shared ∧ ∀ mv ev c', Step machine c mv ev c' →
      (NoOutdated c'.shared ↔ Fresh c mv) := by
  have hs : NoOutdated c.shared := by
    refine hrun.invariant (P := fun _ c => NoOutdated c.shared) ?_ ?_
    · intro key record hrecord
      cases hrecord
    · intro es c₁ mv ev c₂ _ hs hfresh hstep
      exact (noOutdated_step_iff hs hstep).mpr hfresh
  exact ⟨hs, fun mv ev c' hstep => noOutdated_step_iff hs hstep⟩

instance (c : Config K V) (mv : Move K V) : Decidable (Fresh c mv) := by
  unfold Fresh
  split <;> infer_instance

def refilledPicks : List (Pick (Choice Unit Bool)) :=
  [.outside (.get ()), .thread 0 .go, .thread 0 .go, .thread 0 .go,
    .outside (.change () (some true)), .outside (.entryEvent ()), .thread 1 (.report 1),
    .outside (.get ()), .thread 2 .go, .thread 2 .go, .thread 2 .go]

theorem replicatedMap_noOutdated_refilled :
    ∃ events, ∃ c : Config Unit Bool, Run machine Fresh (start fun _ => some false) events c ∧
      c.shared.store () = some ⟨some true, 1⟩ ∧ NoOutdated c.shared := by
  have hexec : (machine.execAll (fun c mv => decide (Fresh c mv)) (start fun _ => some false)
      refilledPicks).any (fun r => decide (r.2.shared.store () = some ⟨some true, 1⟩)) = true := by
    decide +kernel
  obtain ⟨events, c, hrun, htest⟩ := Run.of_execAll_any hexec
  have hfresh := hrun.mono fun _ _ h => of_decide_eq_true h
  exact ⟨events, c, hfresh, of_decide_eq_true htest, (replicatedMap_noOutdated hfresh).1⟩

/-- A get reads the value, the entry changes, the invalidation of the change is processed,
and then the get puts the value it has read; nothing is left to run. -/
def outdatedPicks : List (Pick (Choice Unit Bool)) :=
  [.outside (.get ()), .thread 0 .go, .thread 0 .go, .outside (.change () (some true)),
    .outside (.entryEvent ()), .thread 1 (.report 1), .thread 0 .go]

theorem replicatedMap_keeps_outdated :
    ∃ events, ∃ c : Config Unit Bool,
      Run machine (fun _ _ => True) (start fun _ => some false) events c ∧
        c.threads.all (·.stack.isEmpty) = true ∧
        c.shared.store () = some ⟨some false, 0⟩ ∧ c.shared.processed () = 1 ∧
        ¬ NoOutdated c.shared := by
  have hexec : (machine.execAll (fun _ _ => true) (start fun _ => some false)
      outdatedPicks).any (fun r => r.2.threads.all (·.stack.isEmpty) &&
        decide (r.2.shared.store () = some ⟨some false, 0⟩) &&
        decide (r.2.shared.processed () = 1)) = true := by
    decide +kernel
  obtain ⟨events, c, hrun, htest⟩ := Run.of_execAll_any hexec
  simp only [Bool.and_eq_true, decide_eq_true_eq] at htest
  obtain ⟨⟨hframes, hstore⟩, hprocessed⟩ := htest
  refine ⟨events, c, hrun.always, hframes, hstore, hprocessed, fun h => ?_⟩
  have := h () _ hstore
  rw [hprocessed] at this
  exact absurd this (by decide)

end HazelcastClient.NearCache.ReplicatedMap
