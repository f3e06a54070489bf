import HazelcastClient.Interleaving.CompareExchange
import Mathlib.Data.List.AList

/-!
# The observed clock of a PN counter

A replica answers with the timestamps of all replicas it knows about, and the proxy keeps
such a vector clock for its session guarantees. `update_observed_replica_timestamps`
drops the clock of an answer when the observed one is after it and installs it otherwise.

Clocks are compared replica by replica, which makes a preorder of them, and `is_after` is
its strict part. It is not total. Two replicas may answer with clocks neither of which is
after the other, and then the second answer replaces what the first one has brought.
-/

namespace HazelcastClient.Crdt

open Interleaving List

variable {U : Type}

/-- `vector_clock`, by the entries it was built from; `U` is the type of the uuids. -/
structure VectorClock (U : Type) where
  entries : List (U × ℤ)
  deriving DecidableEq

namespace VectorClock

variable [DecidableEq U] {v w : VectorClock U} {replica : U} {l : List (Sigma fun _ : U => ℤ)}

def empty : VectorClock U := ⟨[]⟩

/-- `replica_timestamps_`: the last entry of a replica counts. -/
def replicaTimestamps (v : VectorClock U) : AList fun _ : U => ℤ :=
  v.entries.foldl (fun timestamps e => timestamps.insert e.1 e.2) ∅

def timestampForReplica (v : VectorClock U) (replica : U) : Option ℤ :=
  v.replicaTimestamps.lookup replica

/-- The loop of `is_after` over the timestamps of the other clock, with the variable
`anyTimestampGreater`; `none` is the return from within. -/
def isAfterLoop (v : VectorClock U) : List (Sigma fun _ : U => ℤ) → Bool → Option Bool
  | [], anyGreater => some anyGreater
  | ⟨replica, other⟩ :: rest, anyGreater =>
    match v.timestampForReplica replica with
    | none => none
    | some timestamp =>
      if timestamp < other then none
      else if other < timestamp then isAfterLoop v rest true
      else isAfterLoop v rest anyGreater

def isAfter (v other : VectorClock U) : Bool :=
  match v.isAfterLoop other.replicaTimestamps.entries false with
  | none => false
  | some anyGreater =>
    anyGreater || other.replicaTimestamps.keys.length < v.replicaTimestamps.keys.length

/-- A clock is below another one that has all its replicas, each with a timestamp at least
as large. -/
instance : Preorder (VectorClock U) where
  le v w := ∀ replica t, v.timestampForReplica replica = some t →
    ∃ t', w.timestampForReplica replica = some t' ∧ t ≤ t'
  le_refl v replica t h := ⟨t, h, le_rfl⟩
  le_trans u v w huv hvw replica t h := by
    obtain ⟨t₁, h₁, hle₁⟩ := huv replica t h
    obtain ⟨t₂, h₂, hle₂⟩ := hvw replica t₁ h₁
    exact ⟨t₂, h₂, hle₁.trans hle₂⟩

theorem le_iff :
    v ≤ w ↔ ∀ replica t, v.timestampForReplica replica = some t →
      ∃ t', w.timestampForReplica replica = some t' ∧ t ≤ t' := Iff.rfl

theorem empty_le (v : VectorClock U) : empty ≤ v := by
  intro replica t h
  simp [timestampForReplica, replicaTimestamps, empty] at h

theorem mem_entries {t : ℤ} :
    (⟨replica, t⟩ : Sigma fun _ : U => ℤ) ∈ v.replicaTimestamps.entries ↔
      v.timestampForReplica replica = some t :=
  AList.mem_lookup_iff.symm

theorem mem_keys :
    replica ∈ v.replicaTimestamps.keys ↔ ∃ t, v.timestampForReplica replica = some t := by
  rw [← AList.mem_keys, ← AList.lookup_isSome]
  exact Option.isSome_iff_exists

theorem isAfterLoop_isSome {start : Bool} :
    (v.isAfterLoop l start).isSome ↔
      ∀ e ∈ l, ∃ t, v.timestampForReplica e.1 = some t ∧ e.2 ≤ t := by
  induction l generalizing start with
  | nil => simp [isAfterLoop]
  | cons e l ih =>
    obtain ⟨replica, other⟩ := e
    cases hv : v.timestampForReplica replica with
    | none => simp [isAfterLoop, hv]
    | some t =>
      rcases lt_trichotomy t other with hlt | rfl | hgt
      · simp [isAfterLoop, hv, hlt]
      · simp [isAfterLoop, hv, ih]
      · simp [isAfterLoop, hv, ih, hgt, hgt.le, not_lt.mpr hgt.le]

theorem isAfterLoop_result {start result : Bool} (h : v.isAfterLoop l start = some result) :
    result = true ↔ start = true ∨
      ∃ e ∈ l, ∃ t, v.timestampForReplica e.1 = some t ∧ e.2 < t := by
  induction l generalizing start with
  | nil =>
    cases h
    simp
  | cons e l ih =>
    obtain ⟨replica, other⟩ := e
    cases hv : v.timestampForReplica replica with
    | none => simp [isAfterLoop, hv] at h
    | some t =>
      rcases lt_trichotomy t other with hlt | rfl | hgt
      · simp [isAfterLoop, hv, hlt] at h
      · simp only [isAfterLoop, hv, lt_irrefl, ↓reduceIte] at h
        simp [ih h, hv]
      · simp only [isAfterLoop, hv, not_lt.mpr hgt.le, hgt, ↓reduceIte] at h
        simp [ih h, hv, hgt]

theorem keys_subset_of_le (h : v ≤ w) :
    v.replicaTimestamps.keys ⊆ w.replicaTimestamps.keys := by
  intro replica hmem
  obtain ⟨t, ht⟩ := mem_keys.mp hmem
  obtain ⟨t', ht', -⟩ := h replica t ht
  exact mem_keys.mpr ⟨t', ht'⟩

/-- Among clocks that are below one another only in one direction, the larger one has a
larger timestamp or more replicas. -/
theorem not_le_iff_of_le (h : v ≤ w) :
    ¬ w ≤ v ↔
      (∃ replica t t', v.timestampForReplica replica = some t ∧
        w.timestampForReplica replica = some t' ∧ t < t') ∨
      v.replicaTimestamps.keys.length < w.replicaTimestamps.keys.length := by
  have hkeys := keys_subset_of_le h
  constructor
  · intro hnot
    rw [le_iff] at hnot
    push Not at hnot
    obtain ⟨replica, t', hw, hno⟩ := hnot
    cases hv : v.timestampForReplica replica with
    | some t => exact .inl ⟨replica, t, t', hv, hw, hno t hv⟩
    | none =>
      -- `w` has a replica that `v` lacks
      right
      have hnotin : replica ∉ v.replicaTimestamps.keys := by
        rw [mem_keys, hv]
        simp
      have hsub : replica :: v.replicaTimestamps.keys ⊆ w.replicaTimestamps.keys :=
        cons_subset.mpr ⟨mem_keys.mpr ⟨t', hw⟩, hkeys⟩
      have hnodup : (replica :: v.replicaTimestamps.keys).Nodup :=
        nodup_cons.mpr ⟨hnotin, v.replicaTimestamps.keys_nodup⟩
      exact (subperm_of_subset hnodup hsub).length_le
  · rintro (⟨replica, t, t', hv, hw, hlt⟩ | hlen) hle
    · obtain ⟨t'', hv', hle'⟩ := hle replica t' hw
      rw [hv] at hv'
      exact absurd hle' (not_le.mpr (Option.some.inj hv' ▸ hlt))
    · have hsub := subperm_of_subset w.replicaTimestamps.keys_nodup (keys_subset_of_le hle)
      exact absurd hsub.length_le (not_le.mpr hlen)

theorem isAfter_iff {other : VectorClock U} : v.isAfter other = true ↔ other < v := by
  have hall : (∀ e ∈ other.replicaTimestamps.entries,
      ∃ t, v.timestampForReplica e.1 = some t ∧ e.2 ≤ t) ↔ other ≤ v := by
    constructor
    · intro h replica t ht
      exact h ⟨replica, t⟩ (mem_entries.mpr ht)
    · rintro h ⟨replica, t⟩ hmem
      exact h replica t (mem_entries.mp hmem)
  have hany : (∃ e ∈ other.replicaTimestamps.entries,
      ∃ t, v.timestampForReplica e.1 = some t ∧ e.2 < t) ↔
      ∃ replica t t', other.timestampForReplica replica = some t ∧
        v.timestampForReplica replica = some t' ∧ t < t' := by
    constructor
    · rintro ⟨⟨replica, t⟩, hmem, t', hv, hlt⟩
      exact ⟨replica, t, t', mem_entries.mp hmem, hv, hlt⟩
    · rintro ⟨replica, t, t', ho, hv, hlt⟩
      exact ⟨⟨replica, t⟩, mem_entries.mpr ho, t', hv, hlt⟩
  rw [lt_iff_le_not_ge]
  cases hloop : v.isAfterLoop other.replicaTimestamps.entries false with
  | none =>
    have hnot : ¬ other ≤ v := by
      rw [← hall, ← isAfterLoop_isSome, hloop]
      exact Bool.false_ne_true
    simp [isAfter, hloop, hnot]
  | some anyGreater =>
    have hle : other ≤ v := by
      rw [← hall, ← isAfterLoop_isSome, hloop]
      rfl
    have hgreater := isAfterLoop_result hloop
    rw [hany] at hgreater
    simp only [Bool.false_eq_true, false_or] at hgreater
    simp only [isAfter, hloop, Bool.or_eq_true, decide_eq_true_iff]
    rw [hgreater, ← not_le_iff_of_le hle]
    exact (and_iff_right hle).symm

end VectorClock

open VectorClock (empty_le isAfter_iff)

variable [DecidableEq U]

/-- One turn of the loop of `update_observed_replica_timestamps`. -/
def observe (received current : VectorClock U) : Option (VectorClock U) :=
  if current.isAfter received then none else some received

theorem observe_eq_none {received current : VectorClock U} :
    observe received current = none ↔ received < current := by
  simp [observe, isAfter_iff]

theorem observe_eq_some {received current new : VectorClock U} :
    observe received current = some new ↔ ¬ received < current ∧ received = new := by
  simp [observe, isAfter_iff]

/-- The calls of `update_observed_replica_timestamps`. -/
def updateObservedReplicaTimestamps : Machine (Cell (VectorClock U)) Unit
    (ExchangeFrame (VectorClock U) (VectorClock U)) (VectorClock U)
    (CallEvent (VectorClock U)) :=
  exchangeLoop observe

def Receives (received : Set (VectorClock U))
    (_ : Config (Cell (VectorClock U)) Unit (ExchangeFrame (VectorClock U) (VectorClock U))) :
    Move (ExchangeFrame (VectorClock U) (VectorClock U)) (VectorClock U) → Prop
  | .frame _ _ => True
  | .outside clock => clock ∈ received

/-- No timestamp has become smaller or disappeared, and the answers of the calls that have
returned are in the observed clock. -/
structure KeepsInformation (events : List (CallEvent (VectorClock U)))
    (observed : Cell (VectorClock U)) : Prop where
  monotone : observed.history.Pairwise fun newer older => older ≤ newer
  returned : ∀ clock, .returned clock ∈ events → clock ≤ observed.current

variable {events : List (CallEvent (VectorClock U))} {observed : Cell (VectorClock U)}
  {clock : VectorClock U} {received : Set (VectorClock U)}

theorem KeepsInformation.kept (h : KeepsInformation events observed)
    (hle : clock ≤ observed.current) :
    KeepsInformation (events ++ [.returned clock]) observed where
  monotone := h.monotone
  returned := by
    intro r hr
    rcases mem_append.mp hr with hold | hnew
    · exact h.returned r hold
    · cases mem_singleton.mp hnew
      exact hle

theorem KeepsInformation.install (h : KeepsInformation events observed)
    (hle : observed.current ≤ clock) :
    KeepsInformation (events ++ [.returned clock]) (observed.install clock) where
  monotone := by
    rw [Cell.history_install]
    refine pairwise_cons.mpr ⟨fun older hmem => ?_, h.monotone⟩
    rcases mem_cons.mp hmem with rfl | hpast
    · exact hle
    · exact ((pairwise_cons.mp h.monotone).1 older hpast).trans hle
  returned := by
    intro r hr
    rcases mem_append.mp hr with hold | hnew
    · exact (h.returned r hold).trans hle
    · cases mem_singleton.mp hnew
      exact le_rfl

/-- Clocks of which any two are comparable only move forward. -/
theorem KeepsInformation.of_comparable (hcomp : ∀ a ∈ received, ∀ b ∈ received, a ≤ b ∨ b ≤ a)
    {c : Config (Cell (VectorClock U)) Unit (ExchangeFrame (VectorClock U) (VectorClock U))}
    (h : Run updateObservedReplicaTimestamps (Receives received) (.ofCell .empty) events c) :
    KeepsInformation events c.shared := by
  -- besides, the observed clock is the empty one or has been received
  have hall : KeepsInformation events c.shared ∧
      (∀ clock, .called clock ∈ events → clock ∈ received) ∧
      (c.shared.current = .empty ∨ c.shared.current ∈ received) := by
    refine h.cellInvariant (P := fun es cell => KeepsInformation es cell ∧
      (∀ clock, .called clock ∈ es → clock ∈ received) ∧
      (cell.current = .empty ∨ cell.current ∈ received)) ?_ ?_ ?_ ?_
    · rintro es cell call ⟨hkeeps, hcalled, hcur⟩ - hup
      refine ⟨hkeeps.kept (observe_eq_none.mp hup).le, ?_, hcur⟩
      exact fun clock hclock => hcalled clock (by simpa using hclock)
    · rintro es cell call new ⟨hkeeps, hcalled, hcur⟩ hcall hup
      obtain ⟨hnot, rfl⟩ := observe_eq_some.mp hup
      have hmem : call ∈ received := hcalled call hcall
      have hle : cell.current ≤ call := by
        rcases hcur with hempty | hcur
        · rw [hempty]
          exact empty_le call
        · rcases hcomp _ hcur _ hmem with hle | hge
          · exact hle
          · -- not strictly below means equivalent
            by_contra hno
            exact hnot (lt_of_le_not_ge hge hno)
      refine ⟨hkeeps.install hle, ?_, .inr hmem⟩
      exact fun clock hclock => hcalled clock (by simpa using hclock)
    · exact ⟨⟨by simp [Cell.history], by simp⟩, by simp, .inl rfl⟩
    · rintro es c call ⟨hkeeps, hcalled, hcur⟩ hok
      refine ⟨⟨hkeeps.monotone, fun r hr => hkeeps.returned r (by simpa using hr)⟩, ?_, hcur⟩
      intro clock hclock
      rcases mem_append.mp hclock with hold | hnew
      · exact hcalled clock hold
      · cases mem_singleton.mp hnew
        exact hok
  exact hall.1

/-- Of two answers the second one is observed after the first one, unless it is below. -/
theorem exists_run_two_answers {a b : VectorClock U} (ha : a ∈ received) (hb : b ∈ received)
    (hno : ¬ b < a) :
    ∃ events c, Run updateObservedReplicaTimestamps (Receives received) (.ofCell .empty)
      events c ∧ c.shared.history = [b, a, .empty] := by
  have hfirst : observe a .empty = some a :=
    observe_eq_some.mpr ⟨(empty_le a).not_gt, rfl⟩
  have hsecond : observe b a = some b := observe_eq_some.mpr ⟨hno, rfl⟩
  have hrun₁ : Run updateObservedReplicaTimestamps (Receives received) (.ofCell .empty)
      [.called a, .returned a] ⟨⟨a, [.empty]⟩, [⟨(), []⟩]⟩ :=
    Run.of_call (fun _ _ _ => trivial) ha hfirst
  have hrun₂ : Run updateObservedReplicaTimestamps (Receives received)
      ⟨⟨a, [.empty]⟩, [⟨(), []⟩]⟩ [.called b, .returned b]
      ⟨⟨b, [a, .empty]⟩, [⟨(), []⟩, ⟨(), []⟩]⟩ :=
    Run.of_call (fun _ _ _ => trivial) hb hsecond
  exact ⟨_, _, hrun₁.append hrun₂, rfl⟩

/-- `is_after` is a strict order. The observed clock keeps its information in every
interleaving exactly when of any two clocks that are received one is below the other. -/
theorem observed_clock_keeps_iff (received : Set (VectorClock U)) :
    IsStrictOrder (VectorClock U) (fun v w => v.isAfter w = true) ∧
    ((∀ events c, Run updateObservedReplicaTimestamps (Receives received) (.ofCell .empty)
        events c → KeepsInformation events c.shared) ↔
      ∀ a ∈ received, ∀ b ∈ received, a ≤ b ∨ b ≤ a) := by
  refine ⟨?_, ?_, ?_⟩
  · exact { irrefl := fun v h => lt_irrefl v (isAfter_iff.mp h)
            trans := fun u v w huv hvw => isAfter_iff.mpr
              ((isAfter_iff.mp hvw).trans (isAfter_iff.mp huv)) }
  · intro h a ha b hb
    by_cases hlt : b < a
    · exact .inr hlt.le
    · obtain ⟨events, c, hrun, hhist⟩ := exists_run_two_answers ha hb hlt
      have hmono := (h events c hrun).monotone
      rw [hhist] at hmono
      exact .inl ((pairwise_cons.mp hmono).1 a mem_cons_self)
  · intro hcomp events c hrun
    exact KeepsInformation.of_comparable hcomp hrun

/-- Two replicas answer with clocks that each lack an update of the other; the second
answer takes away the timestamp that the first one has brought. -/
theorem observed_clock_loses :
    ∃ events c, Run (updateObservedReplicaTimestamps (U := ℕ)) Always (.ofCell .empty) events c ∧
      .returned ⟨[(1, 5), (2, 0)]⟩ ∈ events ∧
      c.shared.current.timestampForReplica 1 = some 4 ∧
      ¬ (⟨[(1, 5), (2, 0)]⟩ : VectorClock ℕ) ≤ c.shared.current := by
  have hfirst : observe (⟨[(1, 5), (2, 0)]⟩ : VectorClock ℕ) .empty = some ⟨[(1, 5), (2, 0)]⟩ := rfl
  have hsecond : observe (⟨[(1, 4), (2, 3)]⟩ : VectorClock ℕ) ⟨[(1, 5), (2, 0)]⟩ =
      some ⟨[(1, 4), (2, 3)]⟩ := rfl
  have hrun₁ : Run (updateObservedReplicaTimestamps (U := ℕ)) Always (.ofCell .empty)
      [.called _, .returned _] ⟨⟨⟨[(1, 5), (2, 0)]⟩, [.empty]⟩, [⟨(), []⟩]⟩ :=
    Run.of_call (fun _ _ _ => trivial) trivial hfirst
  have hrun₂ : Run (updateObservedReplicaTimestamps (U := ℕ)) Always
      ⟨⟨⟨[(1, 5), (2, 0)]⟩, [.empty]⟩, [⟨(), []⟩]⟩ [.called _, .returned _]
      ⟨⟨⟨[(1, 4), (2, 3)]⟩, [⟨[(1, 5), (2, 0)]⟩, .empty]⟩, [⟨(), []⟩, ⟨(), []⟩]⟩ :=
    Run.of_call (fun _ _ _ => trivial) trivial hsecond
  refine ⟨_, _, hrun₁.append hrun₂, by simp, rfl, ?_⟩
  intro hle
  obtain ⟨t, ht, hfive⟩ := hle 1 5 rfl
  cases ht
  exact absurd hfive (by decide)

end HazelcastClient.Crdt
