import HazelcastClient.Interleaving.Machine
import Mathlib.Data.Finset.Card

/-!
# Call ids

`AbstractCallIdSequence` counts the correlation ids that it has given out, `head`, and those
that were returned, `tail`. `next` waits for space, `force_next` does not. A retry forces a
new id and returns the old one at once; the continuation of the promise returns the last one.
Invocations have numbers.
-/

namespace HazelcastClient.Spi.CallIds

open Interleaving List

structure CallIdSequence where
  maxConcurrentInvocations : ℕ
  head : ℕ := 0
  tail : ℕ := 0
  /-- the invocations that have been invoked, and those that have got an id -/
  invoked : List ℕ := []
  obtained : List ℕ := []

inductive Operand where
  | head
  | tail
  deriving DecidableEq

/-- The places of `next`, with the operand of `has_space` that has been read, of `invoke`
and of `execute`. -/
inductive Place where
  | hasSpace (read : Option (Operand × ℕ))
  | noSpaceLeft
  | forceNext
  | invoking
  | continuation
  | execute
  | release
  deriving DecidableEq

/-- A call for an invocation. -/
structure Frame where
  place : Place
  invocation : ℕ
  deriving DecidableEq

inductive Kind where
  | obtained
  | completed
  | forced
  | released
  deriving DecidableEq

structure Event where
  kind : Kind
  invocation : ℕ
  deriving DecidableEq

inductive Choice where
  | go
  | read (operand : Operand)
  | overload
  | invoke (i : ℕ)
  | invokeUrgent (i : ℕ)
  | execute (i : ℕ)

namespace CallIdSequence

def value (s : CallIdSequence) : Operand → ℕ
  | .head => s.head
  | .tail => s.tail

/-- The comparison in `has_space`, when the other operand is read now. -/
def hasSpace (s : CallIdSequence) : Operand × ℕ → Bool
  | (.head, head) => (head : ℤ) - s.tail < s.maxConcurrentInvocations
  | (.tail, tail) => (s.head : ℤ) - tail < s.maxConcurrentInvocations

/-- One step of a call. `handle_no_space_left` throws `hazelcast_overload` or checks again. -/
def fire (s : CallIdSequence) (choice : Choice) (i : ℕ) :
    Place → Option (Effect CallIdSequence Unit Frame Event)
  | .hasSpace none =>
    match choice with
    | .read operand =>
      some { shared := s, next := [⟨.hasSpace (some (operand, s.value operand)), i⟩] }
    | _ => none
  | .hasSpace (some read) =>
    some { shared := s, next := [⟨if s.hasSpace read then .forceNext else .noSpaceLeft, i⟩] }
  | .noSpaceLeft =>
    match choice with
    | .overload => some { shared := s }
    | .go => some { shared := s, next := [⟨.hasSpace none, i⟩] }
    | _ => none
  | .forceNext =>
    some { shared := { s with head := s.head + 1, obtained := i :: s.obtained }
           next := [⟨.invoking, i⟩], event := some ⟨.obtained, i⟩ }
  | .invoking => some { shared := s, next := [⟨.continuation, i⟩] }
  | .continuation =>
    some { shared := { s with tail := s.tail + 1 }, event := some ⟨.completed, i⟩ }
  | .execute =>
    some { shared := { s with head := s.head + 1 }
           next := [⟨.release, i⟩], event := some ⟨.forced, i⟩ }
  | .release => some { shared := { s with tail := s.tail + 1 }, event := some ⟨.released, i⟩ }

/-- An invocation is invoked once. Once it has an id it may be retried at any time. -/
def outside (s : CallIdSequence) : Choice → Option (Effect CallIdSequence Unit Frame Event)
  | .invoke i =>
    if i ∈ s.invoked then none
    else some { shared := { s with invoked := i :: s.invoked }
                spawned := [⟨(), [⟨.hasSpace none, i⟩]⟩] }
  | .invokeUrgent i =>
    if i ∈ s.invoked then none
    else some { shared := { s with invoked := i :: s.invoked }
                spawned := [⟨(), [⟨.forceNext, i⟩]⟩] }
  | .execute i =>
    if i ∈ s.obtained then some { shared := s, spawned := [⟨(), [⟨.execute, i⟩]⟩] } else none
  | _ => none

end CallIdSequence

def machine : Machine CallIdSequence Unit Frame Choice Event where
  fire s _ choice f := s.fire choice f.invocation f.place
  outside s choice := s.outside choice

def start (maxConcurrentInvocations : ℕ) : Config CallIdSequence Unit Frame :=
  ⟨{ maxConcurrentInvocations := maxConcurrentInvocations }, []⟩

/-! ## Counting -/

/-- The invocation has no id yet. -/
def Place.starts : Place → Bool
  | .hasSpace _ | .noSpaceLeft | .forceNext => true
  | _ => false

/-- The invocation has an id, and its continuation has not run. -/
def Place.holds : Place → Bool
  | .invoking | .continuation => true
  | _ => false

def Event.among (kind : Kind) (p : ℕ → Bool) (e : Event) : Bool :=
  decide (e.kind = kind) && p e.invocation

def Frame.among (places : Place → Bool) (p : ℕ → Bool) (f : Frame) : Bool :=
  places f.place && p f.invocation

/-- The counters and the frames of any set of invocations fit to what has happened. -/
structure Balanced (events : List Event) (s : CallIdSequence) (frames : List Frame) : Prop where
  slots : ∀ p, events.countP (Event.among .obtained p) =
    events.countP (Event.among .completed p) + frames.countP (Frame.among Place.holds p)
  retries : ∀ p, events.countP (Event.among .forced p) =
    events.countP (Event.among .released p) + frames.countP (Frame.among (· = .release) p)
  head : s.head = events.countP (Event.among .obtained fun _ => true) +
    events.countP (Event.among .forced fun _ => true)
  tail : s.tail = events.countP (Event.among .completed fun _ => true) +
    events.countP (Event.among .released fun _ => true)
  once : ∀ i, events.countP (Event.among .obtained (· = i)) +
    frames.countP (Frame.among Place.starts (· = i)) ≤ if i ∈ s.invoked then 1 else 0

namespace Balanced

variable {events : List Event} {s : CallIdSequence} {f : Frame} {frames others : List Frame}
  {choice : Choice} {e : Effect CallIdSequence Unit Frame Event} {s' : CallIdSequence}
  {place : Place}

section

variable (h : Balanced events s (f :: others))

include h

/-- A step of a call only replaces its frame, and emits an event. -/
theorem advance {next : List Frame} {new : List Event}
    (hslots : ∀ p, new.countP (Event.among .obtained p) + [f].countP (Frame.among Place.holds p) =
      new.countP (Event.among .completed p) + next.countP (Frame.among Place.holds p))
    (hretries : ∀ p, new.countP (Event.among .forced p) +
      [f].countP (Frame.among (· = .release) p) =
        new.countP (Event.among .released p) + next.countP (Frame.among (· = .release) p))
    (hhead : s'.head = s.head + new.countP (Event.among .obtained fun _ => true) +
      new.countP (Event.among .forced fun _ => true))
    (htail : s'.tail = s.tail + new.countP (Event.among .completed fun _ => true) +
      new.countP (Event.among .released fun _ => true))
    (honce : ∀ i, new.countP (Event.among .obtained (· = i)) +
      next.countP (Frame.among Place.starts (· = i)) ≤
        [f].countP (Frame.among Place.starts (· = i)))
    (hinvoked : s'.invoked = s.invoked) : Balanced (events ++ new) s' (next ++ others) := by
  have hcount (q : Frame → Bool) : (f :: others).countP q = [f].countP q + others.countP q := by
    rw [← countP_append, singleton_append]
  refine ⟨fun p => ?_, fun p => ?_, ?_, ?_, fun i => ?_⟩
  · have hold := h.slots p
    have hstep := hslots p
    rw [hcount] at hold
    simp only [countP_append]
    omega
  · have hold := h.retries p
    have hstep := hretries p
    rw [hcount] at hold
    simp only [countP_append]
    omega
  · rw [hhead, h.head]
    simp only [countP_append]
    omega
  · rw [htail, h.tail]
    simp only [countP_append]
    omega
  · have hold := h.once i
    have hstep := honce i
    rw [hcount] at hold
    rw [hinvoked]
    simp only [countP_append]
    omega

/-- A step that emits nothing leaves the invocation in a place of the same kind. -/
theorem move (hs : s' = s) (hholds : place.holds = f.place.holds)
    (hstarts : place.starts = f.place.starts) (hrelease : place = .release ↔ f.place = .release) :
    Balanced (events ++ []) s' ([⟨place, f.invocation⟩] ++ others) := by
  subst hs
  exact h.advance (by simp [Frame.among, hholds]) (by simp [Frame.among, hrelease]) rfl rfl
    (by simp [Frame.among, hstarts]) rfl

theorem fire (he : s.fire choice f.invocation f.place = some e) :
    Balanced (events ++ e.event.toList) e.shared (e.frames ++ others) := by
  obtain ⟨place, i⟩ := f
  revert he
  dsimp only
  fun_cases CallIdSequence.fire s choice i place <;> rintro ⟨⟩
  case case3 => refine h.move rfl ?_ ?_ ?_ <;> split <;> simp [Place.holds, Place.starts]
  case case4 =>
    exact h.advance (by simp [Frame.among, Place.holds, Effect.spawnedFrames])
      (by simp [Frame.among, Effect.spawnedFrames]) rfl rfl (by simp [Effect.spawnedFrames]) rfl
  case case1 | case5 | case8 => exact h.move rfl rfl rfl (by simp)
  all_goals
    refine h.advance ?_ ?_ rfl rfl ?_ rfl <;>
      simp [Effect.spawnedFrames, Frame.among, Event.among, Place.holds, Place.starts,
        countP_cons]

end

/-- A thread that the environment starts has no id yet. -/
theorem spawn (h : Balanced events s frames) {i : ℕ} (hhead : s'.head = s.head)
    (htail : s'.tail = s.tail) (hholds : place.holds = false) (hrelease : place ≠ .release)
    (hinvoked : s'.invoked = s.invoked ∧ place.starts = false ∨
      s'.invoked = i :: s.invoked ∧ i ∉ s.invoked) :
    Balanced events s' (frames ++ [⟨place, i⟩]) := by
  refine ⟨fun p => ?_, fun p => ?_, hhead ▸ h.head, htail ▸ h.tail, fun j => ?_⟩
  · simpa [Frame.among, hholds, countP_append] using h.slots p
  · simpa [Frame.among, hrelease, countP_append] using h.retries p
  · have hold := h.once j
    rw [countP_append, countP_singleton]
    rcases hinvoked with ⟨heq, hstarts⟩ | ⟨heq, hnew⟩
    · simpa [Frame.among, hstarts, heq] using hold
    · by_cases hj : i = j
      · subst hj
        rw [if_neg hnew] at hold
        rw [heq, if_pos mem_cons_self]
        split <;> omega
      · simpa [Frame.among, hj, Ne.symm hj, heq] using hold

theorem outside (h : Balanced events s frames) (he : s.outside choice = some e) :
    Balanced (events ++ e.event.toList) e.shared (frames ++ e.spawnedFrames) := by
  revert he
  fun_cases CallIdSequence.outside s choice <;> rintro ⟨⟩ <;> rw [Option.toList_none, append_nil]
  case case5 => exact h.spawn rfl rfl rfl (by simp) (Or.inl ⟨rfl, rfl⟩)
  all_goals exact h.spawn rfl rfl rfl (by simp) (Or.inr ⟨rfl, ‹_›⟩)

theorem run {maxConcurrentInvocations : ℕ} {c : Config CallIdSequence Unit Frame}
    (h : Run machine Always (start maxConcurrentInvocations) events c) :
    Balanced events c.shared c.frames := by
  refine h.frameInvariant (P := Balanced) ?_ ⟨?_, ?_, rfl, rfl, ?_⟩ ?_ ?_
  · intro es s l l' hperm hb
    exact ⟨fun p => hperm.countP_eq _ ▸ hb.slots p, fun p => hperm.countP_eq _ ▸ hb.retries p,
      hb.head, hb.tail, fun i => hperm.countP_eq _ ▸ hb.once i⟩
  · simp [start, Config.frames]
  · simp [start, Config.frames]
  · simp [start, Config.frames]
  · intro es c₁ f choice others threads e _ _ hb _ he
    exact hb.fire he
  · intro es c₁ choice e _ hb _ he
    exact hb.outside he

end Balanced

/-! ## Slots -/

/-- The invocations of the events of a kind. -/
def ids (kind : Kind) (events : List Event) : List ℕ :=
  (events.filter (·.kind = kind)).map Event.invocation

/-- The invocations that have got an id and whose continuation has not run. -/
def holders (events : List Event) : Finset ℕ :=
  (ids .obtained events).toFinset \ (ids .completed events).toFinset

theorem count_ids (kind : Kind) (events : List Event) (i : ℕ) :
    (ids kind events).count i = events.countP (Event.among kind (· = i)) := by
  rw [ids, count_eq_countP, countP_map, countP_filter]
  refine countP_congr fun e _ => ?_
  simp [Event.among, and_comm]

theorem length_ids (kind : Kind) (events : List Event) :
    (ids kind events).length = events.countP (Event.among kind fun _ => true) := by
  rw [ids, length_map, ← countP_eq_length_filter]
  refine countP_congr fun e _ => ?_
  simp [Event.among]

section

variable {events : List Event} {s : CallIdSequence} {frames : List Frame}
    (h : Balanced events s frames)

include h

theorem Balanced.count_le_one (i : ℕ) :
    (ids .completed events).count i ≤ (ids .obtained events).count i ∧
      (ids .obtained events).count i ≤ 1 := by
  have hslots := h.slots (· = i)
  have honce := h.once i
  rw [count_ids, count_ids]
  constructor
  · omega
  · split at honce <;> omega

theorem Balanced.card_holders :
    (holders events).card + (ids .completed events).length = (ids .obtained events).length := by
  have hobtained : (ids .obtained events).Nodup :=
    nodup_iff_count_le_one.mpr fun i => (h.count_le_one i).2
  have hcompleted : (ids .completed events).Nodup :=
    nodup_iff_count_le_one.mpr fun i => (h.count_le_one i).1.trans (h.count_le_one i).2
  have hsub : (ids .completed events).toFinset ⊆ (ids .obtained events).toFinset := by
    intro i hi
    rw [mem_toFinset, ← count_pos_iff] at hi ⊢
    exact hi.trans_le (h.count_le_one i).1
  rw [holders, ← toFinset_card_of_nodup hcompleted, ← toFinset_card_of_nodup hobtained]
  exact Finset.card_sdiff_add_card_eq_card hsub

end

/-- In every run, `tail` does not exceed `head`; when no retry is between its two steps, their
difference is the number of invocations that hold an id; and an invocation whose continuation
has run, once, has returned as many ids as it has got. -/
theorem slots_conserved {maxConcurrentInvocations : ℕ} {events : List Event}
    {c : Config CallIdSequence Unit Frame}
    (h : Run machine Always (start maxConcurrentInvocations) events c) :
    c.shared.tail ≤ c.shared.head ∧
      ((∀ f ∈ c.frames, f.place ≠ .release) →
        c.shared.head - c.shared.tail = (holders events).card) ∧
      ∀ i, (∀ f ∈ c.frames, f ≠ ⟨.release, i⟩) →
        events.count ⟨.released, i⟩ = events.count ⟨.forced, i⟩ ∧
        events.count ⟨.completed, i⟩ ≤ events.count ⟨.obtained, i⟩ ∧
        events.count ⟨.obtained, i⟩ ≤ 1 := by
  have hb := Balanced.run h
  have hslots := hb.slots fun _ => true
  have hretries := hb.retries fun _ => true
  have hhead := hb.head
  have htail := hb.tail
  refine ⟨by omega, fun hquiet => ?_, fun i hquiet => ?_⟩
  · have hnone : c.frames.countP (Frame.among (· = .release) fun _ => true) = 0 :=
      countP_eq_zero.mpr fun f hf => by simp [Frame.among, hquiet f hf]
    have hcard := hb.card_holders
    rw [length_ids, length_ids] at hcard
    omega
  · have hcount (kind : Kind) : events.count ⟨kind, i⟩ = (ids kind events).count i := by
      rw [count_ids, count_eq_countP]
      refine countP_congr fun e _ => ?_
      obtain ⟨kind', j⟩ := e
      simp [Event.among]
    have hnone : c.frames.countP (Frame.among (· = .release) (· = i)) = 0 := by
      refine countP_eq_zero.mpr fun f hf hamong => hquiet f hf ?_
      obtain ⟨place, j⟩ := f
      simpa [Frame.among] using hamong
    have hretry := hb.retries (· = i)
    rw [hcount, hcount, hcount, hcount]
    refine ⟨?_, hb.count_le_one i⟩
    rw [count_ids, count_ids]
    omega

/-- An invocation is retried once and completes. -/
theorem slots_conserved_retried :
    ∃ events c, Run machine Always (start 1) events c ∧
      events = [⟨.obtained, 0⟩, ⟨.forced, 0⟩, ⟨.released, 0⟩, ⟨.completed, 0⟩] ∧
      c.shared.tail ≤ c.shared.head ∧ c.shared.head = 2 := by
  have hexec : (machine.execAll (fun _ _ => true) (start 1) [.outside (.invoke 0),
      .thread 0 (.read .head), .thread 0 .go, .thread 0 .go, .outside (.execute 0),
      .thread 1 .go, .thread 1 .go, .thread 0 .go, .thread 0 .go]).any (fun r =>
        decide (r.1 = [⟨.obtained, 0⟩, ⟨.forced, 0⟩, ⟨.released, 0⟩, ⟨.completed, 0⟩]) &&
        decide (r.2.shared.head = 2)) = true := by decide
  obtain ⟨events, c, hrun, htest⟩ := Run.of_execAll_any hexec
  have hrun := hrun.always
  simp only [Bool.and_eq_true, decide_eq_true_eq] at htest
  exact ⟨events, c, hrun, htest.1, (slots_conserved hrun).1, htest.2⟩

end HazelcastClient.Spi.CallIds
