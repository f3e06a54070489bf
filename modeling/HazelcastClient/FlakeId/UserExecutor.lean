import Mathlib.Data.List.Count
import HazelcastClient.Interleaving.Automaton

/-!
# Fetches on the user executor

The batches of flake ids are fetched on the user executor: the thread that runs a fetch sends
a request and waits in `supplier(size).get()`. When the server has answered, the future is
completed by the continuation of `complete_call_id_sequence`, which is posted to the user
executor too, unless the executor was closed when the request was sent.

The threads of the executor are alike, so only the tasks that they run are recorded. Each
generator has at most one fetch under way. A task that does not wait may end at any time.
-/

namespace HazelcastClient.FlakeId.UserExecutor

open Interleaving List Option

/-- The tasks of the executor; generators are known by their numbers. -/
inductive Task where
  /-- the loop of a fetch -/
  | fetch (g : ℕ)
  /-- the continuation of `complete_call_id_sequence`, and that of `new_id_batch` -/
  | completion (g : ℕ)
  /-- `try_get_id` for a caller that has got no id from the batch -/
  | retry (g : ℕ)
  /-- a continuation of another invocation -/
  | other
  deriving DecidableEq

/-- Where the fetch of a generator is. -/
inductive Phase where
  | idle
  | requesting
  /-- the request is sent; `sync` when its continuation is not posted to the executor -/
  | sent (sync : Bool)
  | answered
  | ready
  deriving DecidableEq

structure State where
  queue : List Task := []
  running : List Task := []
  phase : ℕ → Phase := fun _ => .idle
  closed : Bool := false

inductive Choice where
  | newId (g : ℕ)
  | submit
  | take
  | request (g : ℕ)
  | fail (g : ℕ)
  | answer (g : ℕ)
  | complete (g : ℕ)
  | unusable (g : ℕ)
  | finish (g waiting : ℕ)
  | tryGetId (g : ℕ)
  | endOther
  | close

namespace State

def withPhase (s : State) (g : ℕ) (phase : Phase) : State :=
  { s with phase := Function.update s.phase g phase }

def post (s : State) (tasks : List Task) : State := { s with queue := s.queue ++ tasks }

def leave (s : State) (task : Task) : State := { s with running := s.running.erase task }

/-- A caller without an id starts a fetch, unless there is one in progress. -/
def startFetch (s : State) (g : ℕ) : State :=
  if s.phase g = .idle then (s.post [.fetch g]).withPhase g .requesting else s

def take (n : ℕ) (s : State) : Option State :=
  match s.queue with
  | [] => none
  | task :: queue =>
    if s.running.length < n then some { s with queue, running := task :: s.running } else none

/-- The server has answered. -/
def answer (s : State) (g : ℕ) : Option State :=
  match s.phase g with
  | .sent false => some ((s.post [.completion g]).withPhase g .answered)
  | .sent true => some (s.withPhase g .ready)
  | _ => none

end State

/-- The steps of an executor with `n` threads. -/
def step (n : ℕ) (s : State) : Choice → Option State
  | .newId g => some (s.startFetch g)
  | .submit => some (s.post [.other])
  | .take => s.take n
  | .request g =>
    if .fetch g ∈ s.running ∧ s.phase g = .requesting then
      some (s.withPhase g (.sent s.closed))
    else none
  -- the invocation throws, and all callers get the exception
  | .fail g =>
    if .fetch g ∈ s.running ∧ s.phase g = .requesting then
      some ((s.leave (.fetch g)).withPhase g .idle)
    else none
  | .answer g => s.answer g
  | .complete g =>
    if .completion g ∈ s.running then some ((s.leave (.completion g)).withPhase g .ready)
    else none
  -- the loop goes on when the batch is not usable
  | .unusable g =>
    if .fetch g ∈ s.running ∧ s.phase g = .ready then some (s.withPhase g .requesting) else none
  -- the callers for whom there is no id left try again
  | .finish g waiting =>
    if .fetch g ∈ s.running ∧ s.phase g = .ready then
      some (((s.leave (.fetch g)).withPhase g .idle).post (List.replicate waiting (.retry g)))
    else none
  | .tryGetId g =>
    if .retry g ∈ s.running then some ((s.leave (.retry g)).startFetch g) else none
  | .endOther => if .other ∈ s.running then some (s.leave .other) else none
  | .close => some { s with closed := true }

/-- All threads wait for a future, and the continuation that completes it is in the queue. -/
structure Deadlocked (n : ℕ) (s : State) : Prop where
  full : s.running.length = n
  waits : ∀ t ∈ s.running, ∃ g, t = .fetch g ∧ s.phase g = .answered ∧ .completion g ∈ s.queue

def isFetch : Task → Bool
  | .fetch _ => true
  | _ => false

/-- A thread takes a fetch only if another thread remains for other tasks. -/
def Spare (n : ℕ) (s : State) : Choice → Prop
  | .take => ∀ t, s.queue.head? = some t → isFetch t = true → s.running.countP isFetch + 1 < n
  | _ => True

instance (n : ℕ) (s : State) (c : Choice) : Decidable (Spare n s c) := by
  cases c <;> unfold Spare <;> infer_instance

/-! ## The tasks that run -/

section Running

variable {n : ℕ} {s s' : State} {c : Choice}

theorem take_eq_some (h : s.take n = some s') :
    ∃ task queue, s.queue = task :: queue ∧ s.running.length < n ∧
      s' = { s with queue, running := task :: s.running } := by
  revert h
  fun_cases State.take n s <;> rintro ⟨⟩
  exact ⟨_, _, ‹_›, ‹_›, rfl⟩

theorem running_startFetch (s : State) (g : ℕ) : (s.startFetch g).running = s.running := by
  unfold State.startFetch
  split <;> rfl

theorem running_step (h : step n s c = some s') (hc : c ≠ .take) :
    s'.running.Sublist s.running := by
  cases c with
  | take => exact absurd rfl hc
  | newId g =>
    cases h
    exact (running_startFetch s g).symm ▸ .refl _
  | answer g =>
    revert h
    change s.answer g = some s' → _
    fun_cases State.answer s g <;> rintro ⟨⟩ <;> exact .refl _
  | submit | close => cases h; exact .refl _
  | request g | unusable g =>
    obtain ⟨-, ⟨⟩⟩ := ite_none_right_eq_some.mp h
    exact .refl _
  | fail g | complete g | finish g waiting | endOther =>
    obtain ⟨-, ⟨⟩⟩ := ite_none_right_eq_some.mp h
    exact erase_sublist
  | tryGetId g =>
    obtain ⟨-, ⟨⟩⟩ := ite_none_right_eq_some.mp h
    exact (running_startFetch _ g).symm ▸ erase_sublist

theorem countP_running_step (hspare : Spare n s c) (h : step n s c = some s')
    (hlt : s.running.countP isFetch < n) : s'.running.countP isFetch < n := by
  by_cases hc : c = .take
  · subst hc
    obtain ⟨task, queue, hqueue, -, rfl⟩ := take_eq_some h
    rw [countP_cons]
    split
    · rename_i hfetch
      exact hspare task (by rw [hqueue, List.head?_cons]) hfetch
    · exact hlt
  · exact Nat.lt_of_le_of_lt (running_step h hc).countP_le hlt

/-- As long as a thread is spared, not all threads run fetches. -/
theorem countP_running_lt (hn : 1 ≤ n) (h : Reaches (step n) (Spare n) {} s) :
    s.running.countP isFetch < n :=
  h.invariant (P := fun s => s.running.countP isFetch < n) hn
    fun hlt hspare hstep => countP_running_step hspare hstep hlt

theorem Deadlocked.countP_eq (h : Deadlocked n s) : s.running.countP isFetch = n := by
  rw [countP_eq_length.mpr, h.full]
  intro t ht
  obtain ⟨g, rfl, -⟩ := h.waits t ht
  rfl

end Running

/-! ## The tasks of a fetch -/

namespace State

variable (s : State)

/-- How often a task is in the queue or running. -/
def count (t : Task) : ℕ := s.queue.count t + s.running.count t

theorem count_post (tasks : List Task) (t : Task) :
    (s.post tasks).count t = s.count t + tasks.count t := by
  simp only [count, post, count_append]
  omega

theorem count_withPhase (g : ℕ) (p : Phase) (t : Task) : (s.withPhase g p).count t = s.count t := rfl

theorem phase_withPhase_self (g : ℕ) (p : Phase) : (s.withPhase g p).phase g = p :=
  Function.update_self _ _ _

theorem phase_withPhase_of_ne {g g' : ℕ} (p : Phase) (h : g' ≠ g) :
    (s.withPhase g p).phase g' = s.phase g' :=
  Function.update_of_ne h _ _

theorem count_leave_self {t : Task} (h : t ∈ s.running) : (s.leave t).count t = s.count t - 1 := by
  have hpos := count_pos_iff.mpr h
  simp only [count, leave, count_erase_self]
  omega

theorem count_leave_of_ne {t t' : Task} (h : t ≠ t') : (s.leave t').count t = s.count t := by
  simp only [count, leave, count_erase_of_ne h]

theorem count_pos {t : Task} (h : t ∈ s.running) : 0 < s.count t :=
  Nat.add_pos_right _ (count_pos_iff.mpr h)

end State

open State (count_leave_of_ne count_post count_withPhase phase_withPhase_of_ne phase_withPhase_self)

/-- How many tasks of each kind a fetch has. -/
def Phase.fetches (p : Phase) : ℕ := if p = .idle then 0 else 1

def Phase.completions (p : Phase) : ℕ := if p = .answered then 1 else 0

/-- The tasks of the generators are those that their phases say. -/
structure Consistent (s : State) : Prop where
  fetch : ∀ g, s.count (.fetch g) = (s.phase g).fetches
  completion : ∀ g, s.count (.completion g) = (s.phase g).completions
  not_sync : s.closed = false → ∀ g, s.phase g ≠ .sent true

section Consistency

variable {n : ℕ} {s s' : State} {c : Choice} {g : ℕ} {p : Phase} (h : Consistent s)

include h

theorem Consistent.withPhase (hclosed : s'.closed = s.closed) (hphase : s'.phase = s.phase)
    (hothers : ∀ g', g' ≠ g → s'.count (.fetch g') = s.count (.fetch g') ∧
      s'.count (.completion g') = s.count (.completion g'))
    (hfetch : s'.count (.fetch g) = p.fetches)
    (hcompletion : s'.count (.completion g) = p.completions)
    (hsync : s.closed = false → p ≠ .sent true) : Consistent (s'.withPhase g p) where
  fetch g' := by
    by_cases hg : g' = g
    · subst hg
      rw [count_withPhase, phase_withPhase_self, hfetch]
    · rw [count_withPhase, phase_withPhase_of_ne _ _ hg, (hothers g' hg).1, hphase,
        h.fetch]
  completion g' := by
    by_cases hg : g' = g
    · subst hg
      rw [count_withPhase, phase_withPhase_self, hcompletion]
    · rw [count_withPhase, phase_withPhase_of_ne _ _ hg, (hothers g' hg).2, hphase,
        h.completion]
  not_sync hopen g' := by
    have hopen' : s.closed = false := hclosed ▸ hopen
    by_cases hg : g' = g
    · subst hg
      rw [phase_withPhase_self]
      exact hsync hopen'
    · rw [phase_withPhase_of_ne _ _ hg, hphase]
      exact h.not_sync hopen' g'

theorem Consistent.of_count (hclosed : s'.closed = false → s.closed = false)
    (hphase : s'.phase = s.phase) (hfetch : ∀ g, s'.count (.fetch g) = s.count (.fetch g))
    (hcompletion : ∀ g, s'.count (.completion g) = s.count (.completion g)) : Consistent s' where
  fetch g := by rw [hfetch, hphase, h.fetch]
  completion g := by rw [hcompletion, hphase, h.completion]
  not_sync hopen g := by
    rw [hphase]
    exact h.not_sync (hclosed hopen) g

theorem Consistent.startFetch (g : ℕ) : Consistent (s.startFetch g) := by
  unfold State.startFetch
  split
  · rename_i hidle
    have hfetch := h.fetch g
    have hcompletion := h.completion g
    rw [hidle] at hfetch hcompletion
    refine h.withPhase rfl rfl (fun g' hg => ?_) ?_ ?_ (fun _ hp => nomatch hp)
    · simp [count_post, Ne.symm hg]
    · rw [count_post, hfetch]
      simp [Phase.fetches]
    · rw [count_post, hcompletion]
      simp [Phase.completions]
  · exact h

theorem Consistent.take (hstep : s.take n = some s') : Consistent s' := by
  obtain ⟨task, queue, hqueue, -, rfl⟩ := take_eq_some hstep
  have hcount : ∀ t, State.count { s with queue, running := task :: s.running } t = s.count t := by
    intro t
    simp only [State.count, hqueue, count_cons]
    omega
  exact h.of_count id rfl (fun g => hcount _) (fun g => hcount _)

theorem Consistent.answer (hstep : s.answer g = some s') : Consistent s' := by
  have hfetch := h.fetch g
  have hcompletion := h.completion g
  revert hstep
  fun_cases State.answer s g <;> rintro ⟨⟩
  · rename_i hsent
    rw [hsent] at hfetch hcompletion
    refine h.withPhase rfl rfl (fun g' hg => ?_) ?_ ?_ (fun _ hp => nomatch hp)
    · simp [count_post, Ne.symm hg]
    · rw [count_post, hfetch]
      simp [Phase.fetches]
    · rw [count_post, hcompletion]
      simp [Phase.completions]
  · rename_i hsent
    rw [hsent] at hfetch hcompletion
    exact h.withPhase rfl rfl (fun _ _ => ⟨rfl, rfl⟩) hfetch hcompletion (fun _ hp => nomatch hp)

theorem Consistent.endFetch (hrunning : .fetch g ∈ s.running) (hphase : s.phase g ≠ .answered) :
    Consistent ((s.leave (.fetch g)).withPhase g .idle) := by
  have hfetch := h.fetch g
  have hcompletion := h.completion g
  have hle : (s.phase g).fetches ≤ 1 := by
    unfold Phase.fetches
    split <;> decide
  refine h.withPhase rfl rfl (fun g' hg => ⟨?_, ?_⟩) ?_ ?_ (fun _ hp => nomatch hp)
  · exact count_leave_of_ne _ fun heq => hg (Task.fetch.inj heq)
  · exact count_leave_of_ne _ nofun
  · rw [State.count_leave_self _ hrunning, hfetch]
    exact Nat.sub_eq_zero_of_le hle
  · have hne : Task.completion g ≠ .fetch g := nofun
    rw [count_leave_of_ne _ hne, hcompletion, Phase.completions, if_neg hphase]
    rfl

theorem Consistent.complete (hrunning : .completion g ∈ s.running) :
    Consistent ((s.leave (.completion g)).withPhase g .ready) := by
  have hcompletion := h.completion g
  have hanswered : s.phase g = .answered := by
    by_contra hne
    have hpos := s.count_pos hrunning
    rw [hcompletion, Phase.completions, if_neg hne] at hpos
    exact absurd hpos (Nat.lt_irrefl 0)
  have hfetch := h.fetch g
  rw [hanswered] at hfetch hcompletion
  refine h.withPhase rfl rfl (fun g' hg => ⟨?_, ?_⟩) ?_ ?_ (fun _ hp => nomatch hp)
  · exact count_leave_of_ne _ nofun
  · exact count_leave_of_ne _ fun heq => hg (Task.completion.inj heq)
  · have hne : Task.fetch g ≠ .completion g := nofun
    rw [count_leave_of_ne _ hne, hfetch]
    rfl
  · rw [State.count_leave_self _ hrunning, hcompletion]
    rfl

theorem Consistent.step (hstep : step n s c = some s') : Consistent s' := by
  cases c with
  | newId g =>
    cases hstep
    exact h.startFetch g
  | submit =>
    cases hstep
    refine h.of_count id rfl (fun g => ?_) (fun g => ?_) <;> simp [count_post]
  | take => exact h.take hstep
  | request g =>
    obtain ⟨hrequesting, ⟨⟩⟩ := ite_none_right_eq_some.mp hstep
    have hfetch := h.fetch g
    have hcompletion := h.completion g
    rw [hrequesting.2] at hfetch hcompletion
    refine h.withPhase rfl rfl (fun _ _ => ⟨rfl, rfl⟩) hfetch hcompletion ?_
    rintro hopen hsent
    rw [hopen] at hsent
    cases hsent
  | fail g =>
    obtain ⟨hrequesting, ⟨⟩⟩ := ite_none_right_eq_some.mp hstep
    exact h.endFetch hrequesting.1 (hrequesting.2 ▸ nofun)
  | answer g => exact h.answer hstep
  | complete g =>
    obtain ⟨hrunning, ⟨⟩⟩ := ite_none_right_eq_some.mp hstep
    exact h.complete hrunning
  | unusable g =>
    obtain ⟨hready, ⟨⟩⟩ := ite_none_right_eq_some.mp hstep
    have hfetch := h.fetch g
    have hcompletion := h.completion g
    rw [hready.2] at hfetch hcompletion
    exact h.withPhase rfl rfl (fun _ _ => ⟨rfl, rfl⟩) hfetch hcompletion (fun _ hp => nomatch hp)
  | finish g waiting =>
    obtain ⟨hready, ⟨⟩⟩ := ite_none_right_eq_some.mp hstep
    refine (h.endFetch hready.1 (hready.2 ▸ nofun)).of_count id rfl (fun g' => ?_) (fun g' => ?_)
    · simp [count_post, count_replicate]
    · simp [count_post, count_replicate]
  | tryGetId g =>
    obtain ⟨-, ⟨⟩⟩ := ite_none_right_eq_some.mp hstep
    refine Consistent.startFetch ?_ g
    exact h.of_count id rfl (fun g => count_leave_of_ne _ nofun)
      (fun g => count_leave_of_ne _ nofun)
  | endOther =>
    obtain ⟨-, ⟨⟩⟩ := ite_none_right_eq_some.mp hstep
    exact h.of_count id rfl (fun g => count_leave_of_ne _ nofun)
      (fun g => count_leave_of_ne _ nofun)
  | close =>
    cases hstep
    exact h.of_count (fun hopen => nomatch hopen) rfl (fun _ => rfl) (fun _ => rfl)

end Consistency

/-! ## The deadlock -/

section Deadlock

variable {n : ℕ} {s s' : State} {g : ℕ} {c : Choice} {s₁ : State}

section

variable (h : Deadlocked n s)

include h

theorem Deadlocked.not_phase (hrunning : .fetch g ∈ s.running) {p : Phase} (hp : s.phase g = p) :
    p = .answered := by
  obtain ⟨g', heq, hanswered, -⟩ := h.waits _ hrunning
  cases heq
  exact hp.symm.trans hanswered

/-- A deadlock survives what is added to the queue and what happens to other generators. -/
theorem Deadlocked.of_others (hrunning : s'.running = s.running) (hqueue : s.queue ⊆ s'.queue)
    (hphase : ∀ g, .fetch g ∈ s.running → s'.phase g = s.phase g) : Deadlocked n s' where
  full := by rw [hrunning, h.full]
  waits t ht := by
    rw [hrunning] at ht
    obtain ⟨g, rfl, hanswered, hcompletion⟩ := h.waits t ht
    exact ⟨g, rfl, (hphase g ht).trans hanswered, hqueue hcompletion⟩

theorem Deadlocked.startFetch (g : ℕ) : Deadlocked n (s.startFetch g) := by
  unfold State.startFetch
  split
  · rename_i hidle
    refine h.of_others rfl (subset_append_left _ _) fun g' hg' => ?_
    refine phase_withPhase_of_ne _ _ ?_
    rintro rfl
    cases h.not_phase hg' hidle
  · exact h

theorem Deadlocked.answer (hstep : s.answer g = some s') : Deadlocked n s' := by
  have hother : ∀ p, s.phase g = .sent p → ∀ g', .fetch g' ∈ s.running → g' ≠ g := by
    rintro p hp g' hg' rfl
    cases h.not_phase hg' hp
  revert hstep
  fun_cases State.answer s g <;> rintro ⟨⟩
  · refine h.of_others rfl (subset_append_left _ _) fun g' hg' => ?_
    exact phase_withPhase_of_ne _ _ (hother _ ‹_› g' hg')
  · refine h.of_others rfl (List.Subset.refl _) fun g' hg' => ?_
    exact phase_withPhase_of_ne _ _ (hother _ ‹_› g' hg')

/-- No step ends a deadlock. -/
theorem Deadlocked.step (hstep : step n s c = some s') : Deadlocked n s' := by
  cases c with
  | newId g =>
    cases hstep
    exact h.startFetch g
  | submit =>
    cases hstep
    exact h.of_others rfl (subset_append_left _ _) fun _ _ => rfl
  | take =>
    obtain ⟨-, -, -, hlt, -⟩ := take_eq_some hstep
    exact absurd h.full (Nat.ne_of_lt hlt)
  | answer g => exact h.answer hstep
  | close =>
    cases hstep
    exact h.of_others rfl (List.Subset.refl _) fun _ _ => rfl
  -- a task that runs is a fetch, and its phase is that of an answered one
  | complete g | tryGetId g | endOther =>
    obtain ⟨hrunning, -⟩ := ite_none_right_eq_some.mp hstep
    obtain ⟨g', heq, -⟩ := h.waits _ hrunning
    cases heq
  | request g | fail g | unusable g | finish g =>
    obtain ⟨hfetch, -⟩ := ite_none_right_eq_some.mp hstep
    cases h.not_phase hfetch.1 hfetch.2

theorem Deadlocked.forever (hreach : Reaches (UserExecutor.step n) (fun _ _ => True) s s') :
    Deadlocked n s' :=
  hreach.invariant h fun hd _ hs => hd.step hs

end

/-- Steps in which the fetch of `g` goes on and the threads keep what they run. -/
structure Onwards (n g : ℕ) (s s' : State) : Prop where
  reaches : Reaches (UserExecutor.step n) (fun _ _ => True) s s'
  running : s'.running = s.running
  closed : s'.closed = s.closed
  others : ∀ g', g' ≠ g → s'.phase g' = s.phase g'

theorem Onwards.refl (s : State) : Onwards n g s s := ⟨.refl, rfl, rfl, fun _ _ => rfl⟩

theorem Onwards.step {s₁ s₂ : State} (h : Onwards n g s s₁)
    (hstep : UserExecutor.step n s₁ c = some s₂) (hrunning : s₂.running = s₁.running)
    (hclosed : s₂.closed = s₁.closed) (hothers : ∀ g', g' ≠ g → s₂.phase g' = s₁.phase g') :
    Onwards n g s s₂ where
  reaches := h.reaches.tail trivial hstep
  running := hrunning.trans h.running
  closed := hclosed.trans h.closed
  others g' hg' := (hothers g' hg').trans (h.others g' hg')

theorem Onwards.answer (h : Onwards n g s s₁) (hphase : s₁.phase g = .sent false) :
    ∃ s', Onwards n g s s' ∧ s'.phase g = .answered := by
  have hstep : UserExecutor.step n s₁ (.answer g) =
      some ((s₁.post [.completion g]).withPhase g .answered) := by
    simp only [UserExecutor.step, State.answer, hphase]
  exact ⟨_, h.step hstep rfl rfl fun g' hg' => phase_withPhase_of_ne _ _ hg',
    phase_withPhase_self _ _ _⟩

theorem Onwards.request (h : Onwards n g s s₁) (hrunning : .fetch g ∈ s₁.running)
    (hopen : s₁.closed = false) (hphase : s₁.phase g = .requesting) :
    ∃ s', Onwards n g s s' ∧ s'.phase g = .answered := by
  have hstep : UserExecutor.step n s₁ (.request g) = some (s₁.withPhase g (.sent false)) := by
    simp only [UserExecutor.step, hrunning, hphase, hopen, and_self, if_true]
  exact (h.step hstep rfl rfl fun g' hg' => phase_withPhase_of_ne _ _ hg').answer
    (phase_withPhase_self _ _ _)

section

variable (h : Consistent s)

include h

theorem Consistent.reaches (hreach : Reaches (UserExecutor.step n) (fun _ _ => True) s s') :
    Consistent s' :=
  hreach.invariant h fun hc _ hs => hc.step hs

section

variable (hopen : s.closed = false)

include hopen

/-- A fetch that runs can come to wait for a continuation in the queue. -/
theorem Consistent.onwards (hrunning : .fetch g ∈ s.running) :
    ∃ s', Onwards n g s s' ∧ s'.phase g = .answered := by
  cases hphase : s.phase g with
  | idle =>
    have hpos := s.count_pos hrunning
    rw [h.fetch, hphase] at hpos
    exact absurd hpos (Nat.lt_irrefl 0)
  | requesting => exact (Onwards.refl s).request hrunning hopen hphase
  | sent sync =>
    cases sync with
    | false => exact (Onwards.refl s).answer hphase
    | true => exact absurd hphase (h.not_sync hopen g)
  | answered => exact ⟨s, .refl s, hphase⟩
  | ready =>
    have hstep : UserExecutor.step n s (.unusable g) = some (s.withPhase g .requesting) := by
      simp only [UserExecutor.step, hrunning, hphase, and_self, if_true]
    exact ((Onwards.refl s).step hstep rfl rfl fun g' hg' =>
      phase_withPhase_of_ne _ _ hg').request hrunning hopen (phase_withPhase_self _ _ _)

/-- One fetch after the other comes to wait. -/
theorem Consistent.all_answered (tasks : List Task) (htasks : ∀ t ∈ tasks, t ∈ s.running) :
    ∃ s', Reaches (UserExecutor.step n) (fun _ _ => True) s s' ∧ s'.running = s.running ∧
      s'.closed = false ∧ ∀ g, .fetch g ∈ tasks → s'.phase g = .answered := by
  induction tasks with
  | nil => exact ⟨s, .refl, rfl, hopen, fun g hg => absurd hg not_mem_nil⟩
  | cons t tasks ih =>
    rw [forall_mem_cons] at htasks
    obtain ⟨s₁, hreach, hrunning, hopen₁, hanswered⟩ := ih htasks.2
    by_cases hfetch : ∃ g, t = .fetch g
    · obtain ⟨g, rfl⟩ := hfetch
      have hmem : .fetch g ∈ s₁.running := by
        rw [hrunning]
        exact htasks.1
      obtain ⟨s₂, honwards, hphase⟩ := (h.reaches hreach).onwards (n := n) hopen₁ hmem
      refine ⟨s₂, hreach.trans honwards.reaches, honwards.running.trans hrunning,
        honwards.closed.trans hopen₁, fun g' hg' => ?_⟩
      by_cases heq : g' = g
      · rw [heq, hphase]
      · rcases mem_cons.mp hg' with heq' | hmem'
        · exact absurd (Task.fetch.inj heq') heq
        · rw [honwards.others g' heq, hanswered g' hmem']
    · refine ⟨s₁, hreach, hrunning, hopen₁, fun g hg => ?_⟩
      rcases mem_cons.mp hg with heq | hmem
      · exact absurd ⟨g, heq.symm⟩ hfetch
      · exact hanswered g hmem

/-- When all threads run fetches, a deadlock can follow. -/
theorem Consistent.deadlocked (hfull : s.running.length = n)
    (hfetches : ∀ t ∈ s.running, ∃ g, t = .fetch g) :
    ∃ s', Reaches (UserExecutor.step n) (fun _ _ => True) s s' ∧ Deadlocked n s' := by
  obtain ⟨s', hreach, hrunning, -, hanswered⟩ := h.all_answered (n := n) hopen s.running fun _ => id
  refine ⟨s', hreach, hrunning ▸ hfull, fun t ht => ?_⟩
  rw [hrunning] at ht
  obtain ⟨g, rfl⟩ := hfetches t ht
  refine ⟨g, rfl, hanswered g ht, ?_⟩
  have hcount := (h.reaches hreach).completion g
  have hnot : .completion g ∉ s'.running := by
    rw [hrunning]
    intro hmem
    obtain ⟨g', heq⟩ := hfetches _ hmem
    cases heq
  rw [hanswered g ht, State.count, count_eq_zero_of_not_mem hnot, Nat.add_zero] at hcount
  exact count_pos_iff.mp (hcount ▸ Nat.one_pos)

end

end

theorem Consistent.init : Consistent {} := ⟨fun _ => rfl, fun _ => rfl, fun _ _ => nofun⟩

/-- A step that spares no thread fills the executor with fetches. -/
theorem fetches_of_not_spare (hlt : s.running.countP isFetch < n) (hspare : ¬ Spare n s c)
    (hstep : UserExecutor.step n s c = some s') :
    s'.closed = s.closed ∧ s'.running.length = n ∧ ∀ t ∈ s'.running, ∃ g, t = .fetch g := by
  cases c with
  | take =>
    obtain ⟨task, queue, hqueue, hlength, rfl⟩ := take_eq_some hstep
    simp only [Spare, hqueue, List.head?_cons, Option.some.injEq, forall_eq'] at hspare
    rw [not_forall] at hspare
    obtain ⟨hfetch, hle⟩ := hspare
    have hcount := s.running.countP_le_length (p := isFetch)
    have hall : s.running.countP isFetch = s.running.length := by omega
    refine ⟨rfl, ?_, fun t ht => ?_⟩
    · rw [length_cons]
      omega
    · have htask : isFetch t = true := by
        rcases mem_cons.mp ht with rfl | ht
        · exact hfetch
        · exact countP_eq_length.mp hall t ht
      cases t with
      | fetch g => exact ⟨g, rfl⟩
      | _ => cases htask
  | _ => exact absurd trivial hspare

end Deadlock

/-- As long as a thread takes a fetch only if another one is left, the executor is not
deadlocked. After the first step that spares no thread, a deadlock can follow, unless the
executor has been closed. -/
theorem spare_never_deadlocked {n : ℕ} (hn : 1 ≤ n) {s : State}
    (h : Reaches (step n) (Spare n) {} s) :
    ¬ Deadlocked n s ∧ ∀ c s', step n s c = some s' → ¬ Spare n s c → s.closed = false →
      ∃ s'', Reaches (step n) (fun _ _ => True) s' s'' ∧ Deadlocked n s'' := by
  have hlt := countP_running_lt hn h
  have hconsistent : Consistent s := Consistent.init.reaches h.always
  refine ⟨fun hd => Nat.ne_of_lt hlt hd.countP_eq, fun c s' hstep hspare hopen => ?_⟩
  obtain ⟨hclosed, hfull, hfetches⟩ := fetches_of_not_spare hlt hspare hstep
  exact (hconsistent.step hstep).deadlocked (hclosed.trans hopen) hfull hfetches

/-- A fetch on an executor with two threads, from the call of `new_id` to its end. -/
theorem spare_never_deadlocked_two :
    ∃ s, Reaches (step 2) (Spare 2) {} s ∧ s.phase 0 = .idle ∧ s.running = [] ∧
      ¬ Deadlocked 2 s := by
  have hexec : (execSteps (step 2) (fun s c => decide (Spare 2 s c)) {}
      [.newId 0, .take, .request 0, .answer 0, .take, .complete 0, .finish 0 0]).any
      (fun s => s.phase 0 = .idle ∧ s.running = []) = true := by decide +kernel
  obtain ⟨s, hreach, htest⟩ := Reaches.of_execSteps_any hexec
  have hspare : Reaches (step 2) (Spare 2) {} s := hreach.mono fun _ _ hok => of_decide_eq_true hok
  rw [decide_eq_true_eq] at htest
  exact ⟨s, hspare, htest.1, htest.2, (spare_never_deadlocked (by decide) hspare).1⟩

/-- Two generators that fetch at the same time block an executor with two threads for good. -/
theorem two_fetches_deadlock :
    ∃ s, Reaches (step 2) (fun _ _ => True) {} s ∧
      ∀ s', Reaches (step 2) (fun _ _ => True) s s' → Deadlocked 2 s' := by
  have hexec : (execSteps (step 2) (fun _ _ => true) {}
      [.newId 0, .newId 1, .take, .take, .request 0, .request 1, .answer 0, .answer 1]).any
      (fun s => s.running = [.fetch 1, .fetch 0] ∧ s.queue = [.completion 0, .completion 1] ∧
        s.phase 0 = .answered ∧ s.phase 1 = .answered) = true := by decide +kernel
  obtain ⟨s, hreach, htest⟩ := Reaches.of_execSteps_any hexec
  rw [decide_eq_true_eq] at htest
  obtain ⟨hrunning, hqueue, hphase₀, hphase₁⟩ := htest
  have hdeadlocked : Deadlocked 2 s := by
    refine ⟨by rw [hrunning]; rfl, ?_⟩
    rw [hrunning, hqueue, forall_mem_cons, forall_mem_singleton]
    exact ⟨⟨1, rfl, hphase₁, by decide⟩, ⟨0, rfl, hphase₀, by decide⟩⟩
  exact ⟨s, hreach.always, fun s' h => hdeadlocked.forever h⟩

end HazelcastClient.FlakeId.UserExecutor
