import Mathlib.Algebra.Order.Ring.Nat
import Mathlib.Data.List.Flatten
import Mathlib.Algebra.Order.BigOperators.Group.List

/-!
# Machines of interleaved threads

A configuration is a shared state and a list of threads; a thread is a stack of
frames, of which the first one runs. A frame does one atomic access to the
shared state and is replaced by the frames that follow it; it may spawn threads
and emit an event. The environment changes the shared state and spawns threads
as well. A choice resolves what the program leaves open.

A `Run` records the events of its steps and may restrict them to the steps that
meet a condition. Invariants speak about the frames of all threads, in whatever
order (`Step.inversion`): what holds of the frames that do not run must survive
the step of the one that does.
-/

namespace Interleaving

open List Option

/-- A thread: the pool it belongs to and its stack, the running frame first. -/
structure Thread (κ φ : Type) where
  pool : κ
  stack : List φ
  deriving DecidableEq

structure Config (σ κ φ : Type) where
  shared : σ
  threads : List (Thread κ φ)

/-- What one step does. -/
structure Effect (σ κ φ ε : Type) where
  shared : σ
  next : List φ := []
  spawned : List (Thread κ φ) := []
  event : Option ε := none

/-- `fire` runs a frame beside the other threads, `outside` is the environment;
`none` means that the step is not possible. -/
structure Machine (σ κ φ χ ε : Type) where
  fire : σ → List (Thread κ φ) → χ → φ → Option (Effect σ κ φ ε)
  outside : σ → χ → Option (Effect σ κ φ ε)

inductive Move (φ χ : Type) where
  | frame (f : φ) (choice : χ)
  | outside (choice : χ)
  deriving DecidableEq

variable {σ κ φ χ ε : Type}

def Move.isFrame : Move φ χ → Bool
  | .frame _ _ => true
  | .outside _ => false

namespace Config

def frames (c : Config σ κ φ) : List φ := c.threads.flatMap Thread.stack

end Config

def Effect.spawnedFrames (e : Effect σ κ φ ε) : List φ := e.spawned.flatMap Thread.stack

/-- The frames that a step leaves of the one that it ran. -/
@[simp] abbrev Effect.frames (e : Effect σ κ φ ε) : List φ := e.next ++ e.spawnedFrames

inductive Step (M : Machine σ κ φ χ ε) :
    Config σ κ φ → Move φ χ → Option ε → Config σ κ φ → Prop
  | frame {s : σ} (before after : List (Thread κ φ)) (pool : κ) (f : φ) (stack : List φ)
      (choice : χ) {e : Effect σ κ φ ε} (h : M.fire s (before ++ after) choice f = some e) :
      Step M ⟨s, before ++ ⟨pool, f :: stack⟩ :: after⟩ (.frame f choice) e.event
        ⟨e.shared, before ++ ⟨pool, e.next ++ stack⟩ :: (after ++ e.spawned)⟩
  | outside {s : σ} (threads : List (Thread κ φ)) (choice : χ) {e : Effect σ κ φ ε}
      (h : M.outside s choice = some e) :
      Step M ⟨s, threads⟩ (.outside choice) e.event ⟨e.shared, threads ++ e.spawned⟩

/-- The runs whose steps all meet `ok`, with the events they emit. -/
inductive Run (M : Machine σ κ φ χ ε) (ok : Config σ κ φ → Move φ χ → Prop) :
    Config σ κ φ → List ε → Config σ κ φ → Prop
  | refl (c : Config σ κ φ) : Run M ok c [] c
  | tail {c c' c'' : Config σ κ φ} {events : List ε} {mv : Move φ χ} {ev : Option ε}
      (hrun : Run M ok c events c') (hok : ok c' mv) (hstep : Step M c' mv ev c'') :
      Run M ok c (events ++ ev.toList) c''

def Always : Config σ κ φ → Move φ χ → Prop := fun _ _ => True

section Rules

variable {M : Machine σ κ φ χ ε} {ok : Config σ κ φ → Move φ χ → Prop} {c c' : Config σ κ φ}
  {mv : Move φ χ} {ev : Option ε} {events : List ε} (w : φ → ℕ)

/-- A step runs one frame and leaves the others as they are, or it is a step of
the environment, which leaves all of them as they are. -/
theorem Step.inversion (h : Step M c mv ev c') :
    (∃ f choice others threads e, mv = .frame f choice ∧
      M.fire c.shared threads choice f = some e ∧ c'.shared = e.shared ∧ ev = e.event ∧
      c.frames.Perm (f :: others) ∧
      c'.frames.Perm (e.next ++ e.spawnedFrames ++ others)) ∨
    (∃ choice e, mv = .outside choice ∧ M.outside c.shared choice = some e ∧
      c'.shared = e.shared ∧ ev = e.event ∧ c'.frames = c.frames ++ e.spawnedFrames) := by
  cases h with
  | @frame s before after pool f stack choice e h =>
    refine .inl ⟨f, choice, before.flatMap Thread.stack ++ stack ++
      after.flatMap Thread.stack, before ++ after, e, rfl, h, rfl, rfl, ?_, ?_⟩
    · simp only [Config.frames, flatMap_append, flatMap_cons, cons_append,
        append_assoc]
      exact perm_middle
    · simp only [Config.frames, flatMap_append, flatMap_cons, append_assoc,
        Effect.spawnedFrames]
      refine (perm_append_comm_assoc _ _ _).trans ?_
      refine List.Perm.append_left _ ?_
      rw [← append_assoc, ← append_assoc, ← append_assoc]
      exact (perm_append_comm).trans (by simp)
  | @outside s threads choice e h =>
    refine .inr ⟨choice, e, rfl, h, rfl, rfl, ?_⟩
    simp [Config.frames, Effect.spawnedFrames]

section

variable (h : Run M ok c events c')

include h

theorem Run.invariant {P : List ε → Config σ κ φ → Prop} (hinit : P [] c)
    (hstep : ∀ {es c₁ mv ev c₂}, Run M ok c es c₁ → P es c₁ → ok c₁ mv →
      Step M c₁ mv ev c₂ → P (es ++ ev.toList) c₂) : P events c' := by
  induction h with
  | refl => exact hinit
  | tail hrun hok hs ih => exact hstep hrun ih hok hs

theorem Run.mono {ok' : Config σ κ φ → Move φ χ → Prop} (himp : ∀ c mv, ok c mv → ok' c mv) :
    Run M ok' c events c' := by
  induction h with
  | refl => exact Run.refl c
  | tail hrun hok hs ih => exact Run.tail ih (himp _ _ hok) hs

theorem Run.always : Run M Always c events c' :=
  h.mono fun _ _ _ => trivial

/-- An invariant of the shared state and the frames, in whatever order: a step of a
frame replaces it by others, a step of the environment adds some. -/
theorem Run.frameInvariant {P : List ε → σ → List φ → Prop}
    (hperm : ∀ {es s l l'}, l.Perm l' → P es s l → P es s l') (hinit : P [] c.shared c.frames)
    (hframe : ∀ {es c₁ f choice others threads e}, Run M ok c es c₁ →
      c₁.frames.Perm (f :: others) → P es c₁.shared (f :: others) → ok c₁ (.frame f choice) →
      M.fire c₁.shared threads choice f = some e →
      P (es ++ e.event.toList) e.shared (e.next ++ e.spawnedFrames ++ others))
    (houtside : ∀ {es c₁ choice e}, Run M ok c es c₁ → P es c₁.shared c₁.frames →
      ok c₁ (.outside choice) → M.outside c₁.shared choice = some e →
      P (es ++ e.event.toList) e.shared (c₁.frames ++ e.spawnedFrames)) :
    P events c'.shared c'.frames := by
  refine h.invariant (P := fun es c => P es c.shared c.frames) hinit ?_
  intro es c₁ mv ev c₂ hrun hp hok hstep
  rcases hstep.inversion with
    ⟨f, choice, others, threads, e, rfl, hfire, hshared, rfl, hbefore, hafter⟩ |
    ⟨choice, e, rfl, hout, hshared, rfl, hframes⟩
  · rw [hshared]
    exact hperm hafter.symm (hframe hrun hbefore (hperm hbefore hp) hok hfire)
  · rw [hshared, hframes]
    exact houtside hrun hp hok hout

theorem Run.append {c'' : Config σ κ φ} {events' : List ε} (h' : Run M ok c' events' c'') :
    Run M ok c (events ++ events') c'' := by
  induction h' with
  | refl => rwa [append_nil]
  | tail hrun hok hs ih =>
    rw [← append_assoc]
    exact Run.tail ih hok hs

end

/-- The step of a run that emitted an event, with the runs before and after it. -/
theorem Run.split {before after : List ε} {ev : ε} (h : Run M ok c (before ++ ev :: after) c') :
    ∃ c₁ mv c₂, Run M ok c before c₁ ∧ ok c₁ mv ∧ Step M c₁ mv (some ev) c₂ ∧
      Run M ok c₂ after c' := by
  generalize hes : before ++ ev :: after = es at h
  induction h generalizing after with
  | refl => exact absurd hes (by simp)
  | @tail c₃ c₄ es mv ev' hrun hok hs ih =>
    cases ev' with
    | none =>
      rw [toList_none, append_nil] at hes
      obtain ⟨c₁, mv₁, c₂, hbefore, hok₁, hs₁, hafter⟩ := ih hes
      have htail := Run.tail hafter hok hs
      rw [toList_none, append_nil] at htail
      exact ⟨c₁, mv₁, c₂, hbefore, hok₁, hs₁, htail⟩
    | some x =>
      -- the event is the last one, or it has been emitted before
      rcases eq_nil_or_concat after with rfl | ⟨after', y, rfl⟩
      · obtain ⟨rfl, hx⟩ := append_inj' hes rfl
        cases hx
        exact ⟨c₃, mv, c₄, hrun, hok, hs, Run.refl c₄⟩
      · have hes' : (before ++ ev :: after') ++ [y] = es ++ [x] := by simpa using hes
        obtain ⟨hpre, hy⟩ := append_inj' hes' rfl
        cases hy
        obtain ⟨c₁, mv₁, c₂, hbefore, hok₁, hs₁, hafter⟩ := ih hpre
        exact ⟨c₁, mv₁, c₂, hbefore, hok₁, hs₁, by simpa using Run.tail hafter hok hs⟩

theorem sum_map_of_perm {l l' : List φ} (h : l.Perm l') : (l.map w).sum = (l'.map w).sum :=
  (h.map w).sum_eq

/-- A frame weighs no more than all of them. -/
theorem weight_le_of_mem {l : List φ} {f : φ} (h : f ∈ l) : w f ≤ (l.map w).sum :=
  single_le_sum (by simp) _ (mem_map_of_mem h)

end Rules

/-! ## Executing a schedule -/

inductive Pick (χ : Type) where
  | thread (n : ℕ) (choice : χ)
  | outside (choice : χ)

namespace Machine

def exec (M : Machine σ κ φ χ ε) (c : Config σ κ φ) :
    Pick χ → Option (Move φ χ × Option ε × Config σ κ φ)
  | .thread n choice =>
    match c.threads.drop n with
    | ⟨pool, f :: stack⟩ :: after =>
      (M.fire c.shared (c.threads.take n ++ after) choice f).map fun e =>
        (.frame f choice, e.event,
          ⟨e.shared, c.threads.take n ++ ⟨pool, e.next ++ stack⟩ :: (after ++ e.spawned)⟩)
    | _ => none
  | .outside choice =>
    (M.outside c.shared choice).map fun e =>
      (.outside choice, e.event, ⟨e.shared, c.threads ++ e.spawned⟩)

/-- The events and the configuration after a schedule, when every pick is possible
and meets `ok`. -/
def execAll (M : Machine σ κ φ χ ε) (ok : Config σ κ φ → Move φ χ → Bool) :
    Config σ κ φ → List (Pick χ) → Option (List ε × Config σ κ φ)
  | c, [] => some ([], c)
  | c, p :: ps =>
    match M.exec c p with
    | none => none
    | some (mv, ev, c') =>
      if ok c mv then
        (M.execAll ok c' ps).map fun r => (ev.toList ++ r.1, r.2)
      else none

end Machine

variable {M : Machine σ κ φ χ ε} {ok : Config σ κ φ → Move φ χ → Bool} {c c' : Config σ κ φ}
  {picks : List (Pick χ)} {events : List ε} {mv : Move φ χ} {ev : Option ε} {p : Pick χ}

theorem Step.of_exec (h : M.exec c p = some (mv, ev, c')) : Step M c mv ev c' := by
  obtain ⟨s, threads⟩ := c
  cases p with
  | thread n choice =>
    unfold Machine.exec at h
    simp only at h
    split at h
    · rename_i pool f stack after hdrop
      rw [map_eq_some_iff] at h
      obtain ⟨e, he, heq⟩ := h
      simp only [Prod.mk.injEq] at heq
      obtain ⟨rfl, rfl, rfl⟩ := heq
      have hsplit : threads = threads.take n ++ ⟨pool, f :: stack⟩ :: after := by
        rw [← hdrop, take_append_drop]
      have hs := Step.frame (M := M) (threads.take n) after pool f stack choice he
      rw [← hsplit] at hs
      exact hs
    · exact absurd h (by simp)
  | outside choice =>
    unfold Machine.exec at h
    rw [map_eq_some_iff] at h
    obtain ⟨e, he, heq⟩ := h
    simp only [Prod.mk.injEq] at heq
    obtain ⟨rfl, rfl, rfl⟩ := heq
    exact Step.outside threads choice he

theorem Run.head {ok : Config σ κ φ → Move φ χ → Prop} {c c' c'' : Config σ κ φ} (hok : ok c mv)
    (hstep : Step M c mv ev c') (hrun : Run M ok c' events c'') :
    Run M ok c (ev.toList ++ events) c'' := by
  induction hrun with
  | refl =>
    have h := Run.tail (Run.refl c) hok hstep
    rwa [nil_append, ← append_nil ev.toList] at h
  | tail hrun hok' hs ih =>
    rw [← append_assoc]
    exact Run.tail ih hok' hs

theorem Run.of_execAll (h : M.execAll ok c picks = some (events, c')) :
    Run M (fun c mv => ok c mv = true) c events c' := by
  induction picks generalizing c events with
  | nil =>
    simp only [Machine.execAll, Option.some.injEq, Prod.mk.injEq] at h
    obtain ⟨rfl, rfl⟩ := h
    exact Run.refl c
  | cons p picks ih =>
    unfold Machine.execAll at h
    split at h
    · exact absurd h (by simp)
    · rename_i mv ev c₁ hexec
      split at h
      · rename_i hok
        rw [map_eq_some_iff] at h
        obtain ⟨⟨es, c₂⟩, hrest, heq⟩ := h
        simp only [Prod.mk.injEq] at heq
        obtain ⟨rfl, rfl⟩ := heq
        exact Run.head hok (Step.of_exec hexec) (ih hrest)
      · exact absurd h (by simp)

theorem Step.of_exec_any {c : Config σ κ φ} {test : Move φ χ × Option ε × Config σ κ φ → Bool}
    (h : (M.exec c p).any test = true) :
    ∃ mv ev c', Step M c mv ev c' ∧ test (mv, ev, c') = true := by
  cases hexec : M.exec c p with
  | none => simp [hexec] at h
  | some r => exact ⟨r.1, r.2.1, r.2.2, Step.of_exec hexec, by simpa [hexec] using h⟩

theorem Run.of_execAll_any {c : Config σ κ φ} {test : List ε × Config σ κ φ → Bool}
    (h : (M.execAll ok c picks).any test = true) :
    ∃ events c', Run M (fun c mv => ok c mv = true) c events c' ∧ test (events, c') = true := by
  cases hexec : M.execAll ok c picks with
  | none => simp [hexec] at h
  | some r => exact ⟨r.1, r.2, Run.of_execAll hexec, by simpa [hexec] using h⟩

end Interleaving
