import HazelcastClient.Interleaving.Automaton
import HazelcastClient.Spi.ProxyManager

/-!
# Proxies that are still being created

`proxies_` maps a name to the future of its proxy. A call of `get_or_create_proxy` keeps
`lock_` while it sends the creation, attaches the continuation and stores the future. The
continuation of a failed creation takes the lock as well and erases the name; when the
creation has failed before the continuation is attached, it runs at once, in the thread
that has the (recursive) lock already.

`destroy` and `destroy_proxy` wait for the futures while they have the lock.

The state says which thread has the lock and what it does next; threads that wait for the
lock have no state, except for the continuations.
-/

namespace HazelcastClient.Spi

open Interleaving Option AList Reaches

inductive CreationPhase where
  /-- The invocation is sent. -/
  | started
  /-- The invocation is complete before the continuation is attached. -/
  | answered (ok : Bool)
  | attached
  /-- The invocation has failed, and the continuation waits for the lock. -/
  | failing
  | succeeded
  | failed
  /-- The continuation of the failed invocation has run while it was attached. -/
  | failedAtOnce
  deriving DecidableEq

def CreationPhase.isReady : CreationPhase → Bool
  | .succeeded | .failed | .failedAtOnce => true
  | _ => false

structure Creation where
  ns : ObjectNamespace
  phase : CreationPhase
  deriving DecidableEq

/-- The thread that has the lock. Creations are known by their numbers. -/
inductive LockHolder where
  /-- `get_or_create_proxy` after it has called `initialize`. -/
  | creating (ns : ObjectNamespace) (id : ℕ)
  /-- `get_or_create_proxy` before it stores the future. -/
  | inserting (ns : ObjectNamespace) (id : ℕ)
  /-- `destroy` with the futures that it has not waited for. -/
  | destroying (waiting : List ℕ)
  /-- `destroy_proxy` in front of `it->second.get()`. -/
  | destroyingProxy (ns : ObjectNamespace) (id : ℕ)
  deriving DecidableEq

/-- `ProxyManager` with all creations so far. `latest` is the last one of a name. -/
structure ProxyCreations where
  proxies : AList (fun _ : ObjectNamespace => ℕ) := ∅
  holder : Option LockHolder := none
  creations : List Creation := []
  latest : AList (fun _ : ObjectNamespace => ℕ) := ∅

namespace ProxyCreations

inductive Choice where
  /-- `get_or_create_proxy` takes the lock and, without an entry, calls `initialize`. -/
  | call (ns : ObjectNamespace)
  | attach
  | insert
  /-- The invocation is complete. -/
  | complete (id : ℕ) (ok : Bool)
  /-- The continuation of a failed creation gets the lock. -/
  | erase (id : ℕ)
  /-- `destroy`, which meets the entries in some order. -/
  | destroy (order : List ℕ)
  | destroyProxy (ns : ObjectNamespace)
  /-- A `get` under the lock returns or throws. -/
  | got
  | clear
  deriving DecidableEq

def setPhase (s : ProxyCreations) (id : ℕ) (phase : CreationPhase) : ProxyCreations :=
  { s with creations := s.creations.modify id fun c => { c with phase := phase } }

/-- `get_or_create_proxy` up to the end of `initialize`. -/
def call (s : ProxyCreations) (ns : ObjectNamespace) : ProxyCreations :=
  match s.proxies.lookup ns with
  | some _ => s
  | none =>
    { s with
      holder := some (.creating ns s.creations.length)
      creations := s.creations ++ [⟨ns, .started⟩]
      latest := s.latest.insert ns s.creations.length }

/-- `then(launch::sync, ..)`. -/
def attach (s : ProxyCreations) (ns : ObjectNamespace) (id : ℕ) :
    CreationPhase → Option ProxyCreations
  | .started => some { s.setPhase id .attached with holder := some (.inserting ns id) }
  | .answered true => some { s.setPhase id .succeeded with holder := some (.inserting ns id) }
  | .answered false =>
    some
      { s.setPhase id .failedAtOnce with
        proxies := s.proxies.erase ns
        holder := some (.inserting ns id) }
  | _ => none

/-- `proxies_.insert` leaves an entry that is there. -/
def insert (s : ProxyCreations) (ns : ObjectNamespace) (id : ℕ) : ProxyCreations :=
  { s with
    proxies := if (s.proxies.lookup ns).isSome then s.proxies else s.proxies.insert ns id
    holder := none }

def complete (s : ProxyCreations) (id : ℕ) (ok : Bool) : CreationPhase → Option ProxyCreations
  | .started => some (s.setPhase id (.answered ok))
  | .attached => some (s.setPhase id (if ok then .succeeded else .failing))
  | _ => none

/-- What follows the `get` in `destroy_proxy`; the entry of a failed creation stays. -/
def gotProxy (s : ProxyCreations) (ns : ObjectNamespace) : CreationPhase → ProxyCreations
  | .succeeded => { s with proxies := s.proxies.erase ns, holder := none }
  | _ => { s with holder := none }

def step (s : ProxyCreations) : Choice → Option ProxyCreations
  | .call ns => if s.holder = none then some (s.call ns) else none
  | .attach =>
    match s.holder with
    | some (.creating ns id) => s.creations[id]?.bind fun c => s.attach ns id c.phase
    | _ => none
  | .insert =>
    match s.holder with
    | some (.inserting ns id) => some (s.insert ns id)
    | _ => none
  | .complete id ok => s.creations[id]?.bind fun c => s.complete id ok c.phase
  | .erase id =>
    s.creations[id]?.bind fun c =>
      if s.holder = none ∧ c.phase = .failing then
        some { s.setPhase id .failed with proxies := s.proxies.erase c.ns }
      else none
  | .destroy order =>
    if s.holder = none ∧ order.Perm (s.proxies.entries.map Sigma.snd) then
      some { s with holder := some (.destroying order) }
    else none
  | .destroyProxy ns =>
    if s.holder = none then
      match s.proxies.lookup ns with
      | none => some s
      | some id => some { s with holder := some (.destroyingProxy ns id) }
    else none
  | .got =>
    match s.holder with
    | some (.destroying (id :: rest)) =>
      s.creations[id]?.bind fun c =>
        if c.phase.isReady then some { s with holder := some (.destroying rest) } else none
    | some (.destroyingProxy ns id) =>
      s.creations[id]?.bind fun c =>
        if c.phase.isReady then some (s.gotProxy ns c.phase) else none
    | _ => none
  | .clear =>
    match s.holder with
    | some (.destroying []) => some { s with proxies := ∅, holder := none }
    | _ => none

/-! ## Waiting under the lock -/

def phase (s : ProxyCreations) (id : ℕ) : Option CreationPhase := s.creations[id]?.map Creation.phase

theorem phase_setPhase (s : ProxyCreations) (id other : ℕ) (phase : CreationPhase) :
    (s.setPhase id phase).phase other =
      if id = other then (s.phase other).map fun _ => phase else s.phase other := by
  simp only [ProxyCreations.phase, setPhase, List.getElem?_modify]
  split
  · simp [Function.comp_def]
  · simp

def awaited (s : ProxyCreations) : Option ℕ :=
  match s.holder with
  | some (.destroying waiting) => waiting.head?
  | some (.destroyingProxy _ id) => some id
  | _ => none

/-- A thread with the lock waits for a creation whose continuation waits for the lock. -/
def Deadlocked (s : ProxyCreations) : Prop :=
  ∃ id, s.awaited = some id ∧ s.phase id = some .failing

theorem not_deadlocked_of_awaited {s : ProxyCreations} (h : s.awaited = none) :
    ¬ s.Deadlocked := by
  rintro ⟨id, hawaited, -⟩
  rw [h] at hawaited
  cases hawaited

/-- Nobody begins to wait for a creation that has failed and still needs the lock, and a
creation does not fail while somebody waits for it. -/
def Careful (s : ProxyCreations) : Choice → Prop
  | .complete id ok => s.awaited = some id → s.phase id = some .attached → ok = true
  | .destroy order => ∀ id, order.head? = some id → s.phase id ≠ some .failing
  | .destroyProxy ns => ∀ id, s.proxies.lookup ns = some id → s.phase id ≠ some .failing
  | .got =>
    match s.holder with
    | some (.destroying (_ :: rest)) => ∀ id, rest.head? = some id → s.phase id ≠ some .failing
    | _ => True
  | _ => True

section Steps

variable {s s' : ProxyCreations} {ok : Bool} {p : CreationPhase} {choice : Choice}
  {ns : ObjectNamespace} {id : ℕ}

theorem not_deadlocked_iff_of_awaited {P : Prop} (h : s'.awaited = none) (hp : P) :
    ¬ s'.Deadlocked ↔ P :=
  iff_of_true (not_deadlocked_of_awaited h) hp

theorem not_deadlocked_withHolder (s : ProxyCreations) (holder : LockHolder) :
    ¬ { s with holder := some holder }.Deadlocked ↔
      ∀ id, { s with holder := some holder }.awaited = some id → s.phase id ≠ some .failing := by
  constructor
  · exact fun hfree id hawaited hfailing => hfree ⟨id, hawaited, hfailing⟩
  · rintro h ⟨id, hawaited, hfailing⟩
    exact h id hawaited hfailing

theorem complete_some (h : s.complete id ok p = some s') :
    ∃ p', s' = s.setPhase id p' ∧ (p' = .failing ↔ p = .attached ∧ ok = false) := by
  revert h
  fun_cases complete s id ok p <;> rintro ⟨⟩
  · exact ⟨_, rfl, by simp⟩
  · exact ⟨_, rfl, by cases ok <;> simp⟩

theorem not_deadlocked_complete {c : Creation} (hfree : ¬ s.Deadlocked)
    (hc : s.creations[id]? = some c) (h : s.complete id ok c.phase = some s') :
    ¬ s'.Deadlocked ↔ s.Careful (.complete id ok) := by
  obtain ⟨p', rfl, hp'⟩ := complete_some h
  have hphase : s.phase id = some c.phase := by rw [phase, hc, map_some]
  have hset : (s.setPhase id p').phase id = some p' := by
    rw [phase_setPhase, if_pos rfl, hphase, map_some]
  constructor
  · intro hfree' hawaited hattached
    by_contra hok
    rw [hphase, some.injEq] at hattached
    refine hfree' ⟨id, hawaited, ?_⟩
    rw [hset, hp'.mpr ⟨hattached, eq_false_of_ne_true hok⟩]
  · rintro hcareful ⟨id', hawaited, hfailing⟩
    by_cases hid : id = id'
    · subst hid
      rw [hset, some.injEq] at hfailing
      obtain ⟨hattached, hok⟩ := hp'.mp hfailing
      have htrue := hcareful hawaited (by rw [hphase, hattached])
      rw [hok] at htrue
      cases htrue
    · rw [phase_setPhase, if_neg hid] at hfailing
      exact hfree ⟨id', hawaited, hfailing⟩

theorem awaited_attach (h : s.attach ns id p = some s') : s'.awaited = none := by
  revert h
  fun_cases attach s ns id p <;> rintro ⟨⟩ <;> rfl

theorem awaited_gotProxy (ns : ObjectNamespace) (p : CreationPhase) :
    (s.gotProxy ns p).awaited = none := by
  fun_cases gotProxy s ns p <;> rfl

theorem awaited_call (h : s.holder = none) : (s.call ns).awaited = none := by
  fun_cases call s ns
  · rw [awaited, h]
  · rfl

theorem not_deadlocked_got (h : s.step .got = some s') : ¬ s'.Deadlocked ↔ s.Careful .got := by
  simp only [step] at h
  split at h
  · rename_i hholder
    obtain ⟨c, -, hready⟩ := bind_eq_some_iff.mp h
    obtain ⟨-, ⟨⟩⟩ := ite_none_right_eq_some.mp hready
    refine (not_deadlocked_withHolder s _).trans ?_
    simp [Careful, awaited, hholder]
  · rename_i hholder
    obtain ⟨c, -, hready⟩ := bind_eq_some_iff.mp h
    obtain ⟨-, ⟨⟩⟩ := ite_none_right_eq_some.mp hready
    exact not_deadlocked_iff_of_awaited (awaited_gotProxy _ c.phase) (by simp [Careful, hholder])
  · cases h

/-- From a state without a deadlock exactly the careful steps lead to another one. -/
theorem not_deadlocked_step (hfree : ¬ s.Deadlocked) (h : s.step choice = some s') :
    ¬ s'.Deadlocked ↔ s.Careful choice := by
  cases choice with
  | call ns =>
    obtain ⟨hholder, ⟨⟩⟩ := ite_none_right_eq_some.mp h
    exact not_deadlocked_iff_of_awaited (awaited_call hholder) trivial
  | attach =>
    simp only [step] at h
    split at h
    · obtain ⟨c, -, hattach⟩ := bind_eq_some_iff.mp h
      exact not_deadlocked_iff_of_awaited (awaited_attach hattach) trivial
    · cases h
  | insert =>
    simp only [step] at h
    split at h <;> cases h
    exact not_deadlocked_iff_of_awaited rfl trivial
  | complete id ok =>
    obtain ⟨c, hc, hcomplete⟩ := bind_eq_some_iff.mp h
    exact not_deadlocked_complete hfree hc hcomplete
  | erase id =>
    obtain ⟨c, -, herase⟩ := bind_eq_some_iff.mp h
    obtain ⟨⟨hholder, -⟩, ⟨⟩⟩ := ite_none_right_eq_some.mp herase
    exact not_deadlocked_iff_of_awaited (by simp [awaited, setPhase, hholder]) trivial
  | destroy order =>
    obtain ⟨-, ⟨⟩⟩ := ite_none_right_eq_some.mp h
    exact not_deadlocked_withHolder s _
  | destroyProxy ns =>
    obtain ⟨-, hfound⟩ := ite_none_right_eq_some.mp h
    cases hlookup : s.proxies.lookup ns with
    | none =>
      rw [hlookup] at hfound
      cases hfound
      exact iff_of_true hfree (by simp [Careful, hlookup])
    | some id =>
      rw [hlookup] at hfound
      cases hfound
      refine (not_deadlocked_withHolder s _).trans ?_
      simp [Careful, awaited, hlookup]
  | got => exact not_deadlocked_got h
  | clear =>
    simp only [step] at h
    split at h <;> cases h
    exact not_deadlocked_iff_of_awaited rfl trivial

/-- Nothing ends a deadlock: neither the lock nor the creation moves. -/
theorem Deadlocked.step (hdead : s.Deadlocked) (h : s.step choice = some s') : s'.Deadlocked := by
  obtain ⟨id, hawaited, hfailing⟩ := hdead
  have hphase : ∀ c, s.creations[id]? = some c → c.phase = .failing := by
    intro c hc
    rwa [phase, hc, map_some, some.injEq] at hfailing
  have hheld : s.holder ≠ none := by
    intro hnone
    rw [awaited, hnone] at hawaited
    cases hawaited
  have hholds : ∀ {holder}, s.holder = some holder →
      awaited { s with holder := some holder } = some id := by
    rintro holder hholder
    rwa [← hholder]
  cases choice with
  | call ns => exact absurd (ite_none_right_eq_some.mp h).1 hheld
  | complete id' ok =>
    obtain ⟨c, hc, hcomplete⟩ := bind_eq_some_iff.mp h
    have hne : id' ≠ id := by
      rintro rfl
      rw [hphase c hc] at hcomplete
      cases hcomplete
    obtain ⟨p', rfl, -⟩ := complete_some hcomplete
    exact ⟨id, hawaited, by rw [phase_setPhase, if_neg hne, hfailing]⟩
  | erase id' =>
    obtain ⟨c, -, herase⟩ := bind_eq_some_iff.mp h
    exact absurd (ite_none_right_eq_some.mp herase).1.1 hheld
  | destroy order => exact absurd (ite_none_right_eq_some.mp h).1.1 hheld
  | destroyProxy ns => exact absurd (ite_none_right_eq_some.mp h).1 hheld
  -- the future of a creation that fails is not ready
  | got =>
    simp only [ProxyCreations.step] at h
    split at h
    on_goal 3 => cases h
    all_goals
      cases hholds ‹_›
      obtain ⟨c, hc, hready⟩ := bind_eq_some_iff.mp h
      rw [hphase c hc] at hready
      cases hready
  | attach | insert | clear =>
    simp only [ProxyCreations.step] at h
    split at h
    · cases hholds ‹_›
    · cases h

/-- In every state that careful steps lead to there is no deadlock, and the next step leads
to one unless it is careful as well. -/
theorem never_deadlocked (h : Reaches step Careful {} s) :
    ¬ s.Deadlocked ∧ ∀ choice s', s.step choice = some s' →
      (¬ s'.Deadlocked ↔ s.Careful choice) := by
  have hfree : ¬ s.Deadlocked := by
    refine h.invariant (P := fun s => ¬ s.Deadlocked) (not_deadlocked_of_awaited rfl) ?_
    intro s₁ choice s₂ hfree hcareful hstep
    exact (not_deadlocked_step hfree hstep).mpr hcareful
  exact ⟨hfree, fun choice s' => not_deadlocked_step hfree⟩

instance (s : ProxyCreations) (choice : Choice) : Decidable (s.Careful choice) := by
  unfold Careful
  split
  · infer_instance
  · infer_instance
  · infer_instance
  · split
    · infer_instance
    · infer_instance
  · infer_instance

end Steps

def exampleProxy : ObjectNamespace := ⟨"s", "m"⟩

/-- `destroy` waits for a proxy until it is created. -/
theorem never_deadlocked_destroy :
    ∃ s, Reaches step Careful {} s ∧ s.holder = some (.destroying []) ∧ ¬ s.Deadlocked := by
  have hexec : (execSteps step (fun s choice => decide (s.Careful choice)) {}
      [.call exampleProxy, .attach, .insert, .destroy [0], .complete 0 true, .got]).any
        (fun s => s.holder == some (.destroying [])) = true := by
    decide +kernel
  obtain ⟨s, hreach, htest⟩ := of_execSteps_any hexec
  have hcareful := hreach.mono fun s choice h => of_decide_eq_true h
  exact ⟨s, hcareful, beq_iff_eq.mp htest, (never_deadlocked hcareful).1⟩

/-- The creation fails while `destroy` waits for it. The two threads stay where they are. -/
theorem destroy_deadlocks :
    ∃ s, Reaches step (fun _ _ => True) {} s ∧ s.Deadlocked ∧
      ∀ s', Reaches step (fun _ _ => True) s s' → s'.Deadlocked := by
  have hexec : (execSteps step (fun _ _ => true) {}
      [.call exampleProxy, .attach, .insert, .destroy [0], .complete 0 false]).any
        (fun s => s.awaited == some 0 && s.phase 0 == some .failing) = true := by
    decide +kernel
  obtain ⟨s, hreach, htest⟩ := of_execSteps_any hexec
  rw [Bool.and_eq_true, beq_iff_eq, beq_iff_eq] at htest
  have hdead : s.Deadlocked := ⟨0, htest⟩
  refine ⟨s, hreach.always, hdead, ?_⟩
  intro s' hreach'
  exact hreach'.invariant hdead fun hdead _ hstep => hdead.step hstep

/-! ## What is remembered -/

def creates : LockHolder → Option ObjectNamespace
  | .creating ns _ => some ns
  | .inserting ns _ => some ns
  | _ => none

/-- The call of `get_or_create_proxy` for a name that has the lock. -/
def underway (s : ProxyCreations) (ns : ObjectNamespace) : Option LockHolder :=
  s.holder.filter fun holder => creates holder = some ns

/-- Where the latest creation of a name is, by its phase: on its way into the map, in the
map, or gone from it. -/
def Placed (s : ProxyCreations) (ns : ObjectNamespace) (id : ℕ) : CreationPhase → Prop
  | .started | .answered _ =>
    s.underway ns = some (.creating ns id) ∧ s.proxies.lookup ns = none
  | .failed => s.underway ns = none ∧ s.proxies.lookup ns = none
  | .attached | .failing | .succeeded | .failedAtOnce =>
    s.underway ns = some (.inserting ns id) ∧ s.proxies.lookup ns = none ∨
      s.underway ns = none ∧ s.proxies.lookup ns = some id

/-- The map and the creations fit together. -/
structure Consistent (s : ProxyCreations) : Prop where
  unknown : ∀ ns, s.latest.lookup ns = none → s.underway ns = none ∧ s.proxies.lookup ns = none
  known : ∀ ns id, s.latest.lookup ns = some id →
    ∃ c, s.creations[id]? = some c ∧ c.ns = ns ∧ s.Placed ns id c.phase
  older : ∀ id c, s.creations[id]? = some c →
    s.latest.lookup c.ns = some id ∨ c.phase = .failed

theorem Placed.congr {s s' : ProxyCreations} {ns : ObjectNamespace} {id : ℕ} {p : CreationPhase}
    (hplaced : s.Placed ns id p) (hunderway : s'.underway ns = s.underway ns)
    (hproxies : s'.proxies.lookup ns = s.proxies.lookup ns) : s'.Placed ns id p := by
  unfold Placed at hplaced ⊢
  rwa [hunderway, hproxies]

section Consistency

variable {s s' : ProxyCreations} {ns : ObjectNamespace} {id : ℕ} {c : Creation}
  {holder : LockHolder} {id' : ℕ} {p : CreationPhase}

theorem underway_of_holder (h : s.holder = some holder) (hcreates : creates holder = some ns) :
    s.underway ns = some holder := by
  rw [underway, h, filter_some, if_pos (decide_eq_true hcreates)]

theorem underway_of_none (h : s.holder = none) : s.underway ns = none := by
  rw [underway, h, filter_none]

theorem underway_of_ne {other : ObjectNamespace} (h : s.holder = some holder)
    (hcreates : creates holder = some ns) (hne : other ≠ ns) : s.underway other = none := by
  have hother : ¬ decide (creates holder = some other) = true := by
    rw [decide_eq_true_eq, hcreates, some.injEq]
    exact fun heq => hne heq.symm
  rw [underway, h, filter_some, if_neg hother]

/-- A step on the latest creation of a name leaves those of the other names where they are. -/
theorem Consistent.update (h : s.Consistent) (hlatest : s.latest.lookup ns = some id)
    (hsame : s'.latest = s.latest) {c' : Creation} (hc' : s'.creations[id]? = some c')
    (hns : c'.ns = ns) (hplaced : s'.Placed ns id c'.phase)
    (hcreations : ∀ j, j ≠ id → s'.creations[j]? = s.creations[j]?)
    (hothers : ∀ other, other ≠ ns → s'.underway other = s.underway other ∧
      s'.proxies.lookup other = s.proxies.lookup other) : s'.Consistent where
  unknown other hnone := by
    rw [hsame] at hnone
    have hne : other ≠ ns := by
      rintro rfl
      rw [hlatest] at hnone
      cases hnone
    rw [(hothers other hne).1, (hothers other hne).2]
    exact h.unknown other hnone
  known other j hj := by
    rw [hsame] at hj
    by_cases hother : other = ns
    · subst hother
      rw [hlatest] at hj
      cases hj
      exact ⟨c', hc', hns, hplaced⟩
    · obtain ⟨d, hd, hdns, hdplaced⟩ := h.known other j hj
      have hne : j ≠ id := by
        rintro rfl
        obtain ⟨e, he, hens, -⟩ := h.known ns j hlatest
        rw [hd, some.injEq] at he
        rw [← hdns, he, hens] at hother
        exact hother rfl
      exact ⟨d, by rw [hcreations j hne, hd], hdns,
        hdplaced.congr (hothers other hother).1 (hothers other hother).2⟩
  older j d hd := by
    rw [hsame]
    by_cases hj : j = id
    · subst hj
      rw [hc', some.injEq] at hd
      rw [← hd, hns]
      exact .inl hlatest
    · rw [hcreations j hj] at hd
      exact h.older j d hd

theorem setPhase_self (hc : s.creations[id]? = some c) (p : CreationPhase) :
    (s.setPhase id p).creations[id]? = some { c with phase := p } := by
  simp [setPhase, hc]

theorem setPhase_of_ne (p : CreationPhase) {j : ℕ} (hne : j ≠ id) :
    (s.setPhase id p).creations[j]? = s.creations[j]? := by
  simp [setPhase, Ne.symm hne]

theorem Consistent.latest_of_phase (h : s.Consistent) (hc : s.creations[id]? = some c)
    (hphase : c.phase ≠ .failed) : s.latest.lookup c.ns = some id ∧ s.Placed c.ns id c.phase := by
  have hlatest := (h.older id c hc).resolve_right hphase
  obtain ⟨d, hd, -, hplaced⟩ := h.known c.ns id hlatest
  rw [hc, some.injEq] at hd
  subst hd
  exact ⟨hlatest, hplaced⟩

theorem Consistent.latest_of_underway (h : s.Consistent) (hunderway : s.underway ns = some holder) :
    ∃ id c, s.latest.lookup ns = some id ∧
      s.creations[id]? = some c ∧ c.ns = ns ∧ s.Placed ns id c.phase := by
  cases hlatest : s.latest.lookup ns with
  | none =>
    rw [(h.unknown ns hlatest).1] at hunderway
    cases hunderway
  | some id =>
    obtain ⟨c, hc, hns, hplaced⟩ := h.known ns id hlatest
    exact ⟨id, c, rfl, hc, hns, hplaced⟩

theorem Placed.of_creating (h : s.Placed ns id' p)
    (hunderway : s.underway ns = some (.creating ns id)) :
    id' = id ∧ s.proxies.lookup ns = none := by
  unfold Placed at h
  rw [hunderway] at h
  cases p <;> simp at h ⊢ <;> exact ⟨h.1.symm, h.2⟩

/-- The call that is about to store the future. The creation may be over by then. -/
theorem Placed.of_inserting (h : s.Placed ns id' p)
    (hunderway : s.underway ns = some (.inserting ns id)) :
    id' = id ∧ s.proxies.lookup ns = none ∧ ∀ s' : ProxyCreations, s'.underway ns = none →
      s'.proxies.lookup ns = some id → s'.Placed ns id p := by
  unfold Placed at h ⊢
  rw [hunderway] at h
  cases p <;> simp at h ⊢ <;> exact ⟨h.1.symm, h.2, fun _ hnone hsome => .inr ⟨hnone, hsome⟩⟩

section

variable (h : s.Consistent)

include h

theorem consistent_attach (hholder : s.holder = some (.creating ns id))
    (hc : s.creations[id]? = some c) (hattach : s.attach ns id c.phase = some s') :
    s'.Consistent := by
  have hunderway : s.underway ns = some (.creating ns id) := underway_of_holder hholder rfl
  obtain ⟨id', d, hlatest, hd, hns, hplaced⟩ := h.latest_of_underway hunderway
  obtain ⟨rfl, hnone⟩ := hplaced.of_creating hunderway
  rw [hc, some.injEq] at hd
  subst hd
  -- all three ways put the creation in front of the map, with nothing in it
  have hjoin : ∀ (p : CreationPhase) (t : ProxyCreations), t.latest = s.latest →
      t.creations = (s.setPhase id' p).creations → t.holder = some (.inserting ns id') →
      (∀ other, t.proxies.lookup other = s.proxies.lookup other) → t.Placed ns id' p →
      t.Consistent := by
    intro p t hlatest' hcreations hholder' hproxies hplaced'
    have hself := setPhase_self hc p
    rw [← hcreations] at hself
    refine h.update hlatest hlatest' hself hns hplaced' ?_ ?_
    · intro j hj
      rw [hcreations, setPhase_of_ne p hj]
    · intro other hother
      exact ⟨by rw [underway_of_ne hholder' rfl hother, underway_of_ne hholder rfl hother],
        hproxies other⟩
  have hinserting : ∀ t : ProxyCreations, t.holder = some (.inserting ns id') →
      t.underway ns = some (.inserting ns id') := fun t ht => underway_of_holder ht rfl
  generalize c.phase = q at hattach
  revert hattach
  fun_cases attach s ns id' q <;> rintro ⟨⟩
  · exact hjoin .attached _ rfl rfl rfl (fun _ => rfl) (.inl ⟨hinserting _ rfl, hnone⟩)
  · exact hjoin .succeeded _ rfl rfl rfl (fun _ => rfl) (.inl ⟨hinserting _ rfl, hnone⟩)
  · refine hjoin .failedAtOnce _ rfl rfl rfl ?_ (.inl ⟨hinserting _ rfl, ?_⟩)
    · intro other
      by_cases hother : other = ns
      · rw [hother, hnone]
        exact lookup_erase ns s.proxies
      · exact lookup_erase_ne hother
    · exact lookup_erase ns s.proxies

theorem consistent_insert (hholder : s.holder = some (.inserting ns id)) :
    (s.insert ns id).Consistent := by
  have hunderway : s.underway ns = some (.inserting ns id) := underway_of_holder hholder rfl
  obtain ⟨id', d, hlatest, hd, hns, hplaced⟩ := h.latest_of_underway hunderway
  obtain ⟨rfl, hnone, hinserted⟩ := hplaced.of_inserting hunderway
  have hproxies : (s.insert ns id').proxies = s.proxies.insert ns id' := by
    simp [insert, hnone]
  have hlatest' : (s.insert ns id').latest = s.latest := rfl
  refine h.update hlatest hlatest' hd hns ?_ (fun _ _ => rfl) ?_
  · refine hinserted _ (underway_of_none rfl) ?_
    rw [hproxies, lookup_insert]
  · intro other hother
    rw [hproxies, lookup_insert_ne hother, underway_of_ne hholder rfl hother]
    exact ⟨underway_of_none rfl, rfl⟩

theorem consistent_complete {ok : Bool} (hc : s.creations[id]? = some c)
    (hcomplete : s.complete id ok c.phase = some s') : s'.Consistent := by
  have hset : ∀ p, c.phase ≠ .failed → (s.Placed c.ns id c.phase → s.Placed c.ns id p) →
      (s.setPhase id p).Consistent := by
    intro p hphase hkeep
    obtain ⟨hlatest, hplaced⟩ := h.latest_of_phase hc hphase
    exact h.update hlatest rfl (setPhase_self hc p) rfl
      ((hkeep hplaced).congr rfl rfl) (fun j hj => setPhase_of_ne p hj) (fun _ _ => ⟨rfl, rfl⟩)
  unfold complete at hcomplete
  split at hcomplete
  · rename_i hphase
    cases hcomplete
    refine hset _ (by simp [hphase]) ?_
    rw [hphase]
    exact fun hplaced => hplaced
  · rename_i hphase
    cases hcomplete
    refine hset _ (by simp [hphase]) ?_
    rw [hphase]
    cases ok
    · exact fun hplaced => hplaced
    · exact fun hplaced => hplaced
  · cases hcomplete

theorem consistent_erase (hc : s.creations[id]? = some c) (hholder : s.holder = none)
    (hphase : c.phase = .failing) :
    { s.setPhase id .failed with proxies := s.proxies.erase c.ns }.Consistent := by
  obtain ⟨hlatest, -⟩ := h.latest_of_phase hc (by simp [hphase])
  refine h.update hlatest rfl (setPhase_self hc .failed) rfl ?_
    (fun j hj => setPhase_of_ne .failed hj) ?_
  · exact ⟨underway_of_none hholder, lookup_erase c.ns s.proxies⟩
  · exact fun other hother => ⟨rfl, lookup_erase_ne hother⟩

end

/-- Without an entry and with the lock free, the latest creation has failed. -/
theorem Placed.failed_of_none (h : s.Placed ns id p) (hunderway : s.underway ns = none)
    (hnone : s.proxies.lookup ns = none) : p = .failed := by
  unfold Placed at h
  rw [hunderway, hnone] at h
  cases p <;> simp at h ⊢

theorem consistent_call (h : s.Consistent) (hholder : s.holder = none) (ns : ObjectNamespace) :
    (s.call ns).Consistent := by
  unfold call
  split
  · exact h
  · rename_i hlookup
    set n := s.creations.length with hn
    set t : ProxyCreations := ⟨s.proxies, some (.creating ns n), s.creations ++ [⟨ns, .started⟩],
      s.latest.insert ns n⟩ with ht
    have hidle : ∀ other, s.underway other = none := fun other => underway_of_none hholder
    have hothers : ∀ other, other ≠ ns → t.underway other = none := fun other hother =>
      underway_of_ne (s := t) rfl rfl hother
    have hlast : t.creations[n]? = some ⟨ns, .started⟩ := by simp [ht, hn]
    have hold : ∀ {j : ℕ} {d : Creation}, s.creations[j]? = some d →
        t.creations[j]? = some d := by
      intro j d hd
      rw [← hd]
      exact List.getElem?_append_left (List.getElem?_eq_some_iff.mp hd).1
    refine ⟨?_, ?_, ?_⟩
    · intro other hnone
      have hother : other ≠ ns := by
        rintro rfl
        rw [lookup_insert] at hnone
        cases hnone
      rw [lookup_insert_ne hother] at hnone
      exact ⟨hothers other hother, (h.unknown other hnone).2⟩
    · intro other j hj
      by_cases hother : other = ns
      · subst hother
        rw [lookup_insert, some.injEq] at hj
        subst hj
        exact ⟨_, hlast, rfl, underway_of_holder (s := t) rfl rfl, hlookup⟩
      · rw [lookup_insert_ne hother] at hj
        obtain ⟨d, hd, hdns, hplaced⟩ := h.known other j hj
        exact ⟨d, hold hd, hdns, hplaced.congr (by rw [hothers other hother, hidle other]) rfl⟩
    · intro j d hd
      rcases Nat.lt_or_ge j n with hlt | hge
      · have hd' : s.creations[j]? = some d := by
          rw [← hd]
          exact (List.getElem?_append_left hlt).symm
        rcases h.older j d hd' with hlatest | hfailed
        · by_cases hdns : d.ns = ns
          · -- the creation before this one had failed, or it would be in the map
            obtain ⟨e, he, -, hplaced⟩ := h.known d.ns j hlatest
            rw [hd', some.injEq] at he
            subst he
            exact .inr (hplaced.failed_of_none (hidle _) (hdns ▸ hlookup))
          · exact .inl (by rw [lookup_insert_ne hdns, hlatest])
        · exact .inr hfailed
      · have hj : j = n := by
          have hlt := (List.getElem?_eq_some_iff.mp hd).1
          rw [ht, List.length_append, List.length_singleton] at hlt
          omega
        subst hj
        rw [hlast, some.injEq] at hd
        subst hd
        exact .inl (lookup_insert _)

/-- The steps without `destroy` and `destroy_proxy`. -/
def creating : Choice → Bool
  | .call _ | .attach | .insert | .complete _ _ | .erase _ => true
  | .destroy _ | .destroyProxy _ | .got | .clear => false

theorem consistent_step {choice : Choice} (h : s.Consistent) (hcreating : creating choice = true)
    (hstep : s.step choice = some s') : s'.Consistent := by
  cases choice with
  | call ns =>
    obtain ⟨hholder, ⟨⟩⟩ := ite_none_right_eq_some.mp hstep
    exact consistent_call h hholder ns
  | attach =>
    simp only [step] at hstep
    split at hstep
    · obtain ⟨c, hc, hattach⟩ := bind_eq_some_iff.mp hstep
      exact consistent_attach h ‹_› hc hattach
    · cases hstep
  | insert =>
    simp only [step] at hstep
    split at hstep <;> cases hstep
    exact consistent_insert h ‹_›
  | complete id ok =>
    obtain ⟨c, hc, hcomplete⟩ := bind_eq_some_iff.mp hstep
    exact consistent_complete h hc hcomplete
  | erase id =>
    obtain ⟨c, hc, herase⟩ := bind_eq_some_iff.mp hstep
    obtain ⟨⟨hholder, hphase⟩, ⟨⟩⟩ := ite_none_right_eq_some.mp herase
    exact consistent_erase h hc hholder hphase
  | destroy | destroyProxy | got | clear => cases hcreating

end Consistency

/-- No call has the lock and no creation is outstanding. -/
def Quiet (s : ProxyCreations) : Prop :=
  s.holder = none ∧ ∀ c ∈ s.creations, c.phase.isReady = true

/-- A name has an entry exactly if its latest creation succeeded, and the next call for a
name whose creation failed starts a new one. -/
structure Remembers (s : ProxyCreations) : Prop where
  entry_iff : ∀ ns, (s.proxies.lookup ns).isSome ↔
    ∃ id, s.latest.lookup ns = some id ∧ s.phase id = some .succeeded
  starts : ∀ ns id, s.latest.lookup ns = some id → s.phase id ≠ some .succeeded →
    ∃ s', s.step (.call ns) = some s' ∧ s'.latest.lookup ns = some s.creations.length ∧
      s'.phase s.creations.length = some .started

/-- The latest creation of the name had failed before its continuation was attached. -/
def FailedEarly (s : ProxyCreations) (ns : ObjectNamespace) : Prop :=
  ∃ id, s.latest.lookup ns = some id ∧ s.phase id = some .failedAtOnce

section Quiescence

variable {s : ProxyCreations} {ns : ObjectNamespace} {id : ℕ}

/-- Without a call under way a latest creation that is over is in the map unless it has
failed in the ordinary way. -/
theorem lookup_of_quiet (h : s.Consistent) (hquiet : s.Quiet)
    (hlatest : s.latest.lookup ns = some id) :
    s.phase id = some .failed ∧ s.proxies.lookup ns = none ∨
      (s.phase id = some .succeeded ∨ s.phase id = some .failedAtOnce) ∧
        s.proxies.lookup ns = some id := by
  obtain ⟨c, hc, -, hplaced⟩ := h.known ns id hlatest
  have hready := hquiet.2 c (List.mem_of_getElem? hc)
  have hphase : s.phase id = some c.phase := by rw [phase, hc, map_some]
  unfold Placed at hplaced
  rw [underway_of_none hquiet.1] at hplaced
  rw [hphase]
  cases hp : c.phase <;> simp [hp, CreationPhase.isReady] at hready hplaced ⊢
  · exact hplaced
  · exact hplaced
  · exact hplaced

theorem step_call_of_none (hquiet : s.Quiet) (hnone : s.proxies.lookup ns = none) :
    ∃ s', s.step (.call ns) = some s' ∧ s'.latest.lookup ns = some s.creations.length ∧
      s'.phase s.creations.length = some .started := by
  refine ⟨s.call ns, if_pos hquiet.1, ?_, ?_⟩
  · simp [call, hnone]
  · simp [call, hnone, phase]

/-- After calls and creations, but no `destroy`, a failed creation is forgotten unless it
had failed before its continuation was attached. -/
theorem remembers_iff (hreach : Reaches step (fun _ choice => creating choice = true) {} s)
    (hquiet : s.Quiet) : s.Remembers ↔ ∀ ns, ¬ s.FailedEarly ns := by
  have h : s.Consistent := by
    refine hreach.invariant ⟨fun _ _ => ⟨rfl, rfl⟩, ?_, ?_⟩ consistent_step
    · intro ns id hlatest
      cases hlatest
    · intro id c hc
      simp at hc
  constructor
  · rintro hremembers ns ⟨id, hlatest, hphase⟩
    rcases lookup_of_quiet h hquiet hlatest with ⟨hfailed, -⟩ | ⟨-, hlookup⟩
    · rw [hphase] at hfailed
      cases hfailed
    · obtain ⟨id', hlatest', hsucceeded⟩ :=
        (hremembers.entry_iff ns).mp (by rw [hlookup, isSome_some])
      rw [hlatest, some.injEq] at hlatest'
      subst hlatest'
      rw [hphase] at hsucceeded
      cases hsucceeded
  · intro hlate
    refine ⟨?_, ?_⟩
    · intro ns
      constructor
      · intro hsome
        cases hlatest : s.latest.lookup ns with
        | none => simp [(h.unknown ns hlatest).2] at hsome
        | some id =>
          rcases lookup_of_quiet h hquiet hlatest with ⟨-, hnone⟩ | ⟨hphase, -⟩
          · simp [hnone] at hsome
          · exact ⟨id, rfl, hphase.resolve_right fun hearly => hlate ns ⟨id, hlatest, hearly⟩⟩
      · rintro ⟨id, hlatest, hphase⟩
        rcases lookup_of_quiet h hquiet hlatest with ⟨hfailed, -⟩ | ⟨-, hlookup⟩
        · rw [hphase] at hfailed
          cases hfailed
        · rw [hlookup, isSome_some]
    · intro ns id hlatest hphase
      rcases lookup_of_quiet h hquiet hlatest with ⟨-, hnone⟩ | ⟨hover, -⟩
      · exact step_call_of_none hquiet hnone
      · exact absurd (hover.resolve_left hphase) fun hearly => hlate ns ⟨id, hlatest, hearly⟩

end Quiescence

/-- A creation fails, is forgotten, and the next one succeeds. -/
theorem remembers_iff_retried :
    ∃ s, Reaches step (fun _ choice => creating choice = true) {} s ∧ s.Quiet ∧
      s.creations = [⟨exampleProxy, .failed⟩, ⟨exampleProxy, .succeeded⟩] ∧ s.Remembers := by
  have hexec : (execSteps step (fun _ choice => creating choice) {}
      [.call exampleProxy, .attach, .complete 0 false, .insert, .erase 0,
        .call exampleProxy, .attach, .insert, .complete 1 true]).any (fun s =>
        s.holder == none &&
          s.creations == [⟨exampleProxy, .failed⟩, ⟨exampleProxy, .succeeded⟩]) = true := by
    decide +kernel
  obtain ⟨s, hreach, htest⟩ := of_execSteps_any hexec
  simp only [Bool.and_eq_true, beq_iff_eq] at htest
  obtain ⟨hholder, hcreations⟩ := htest
  have hquiet : s.Quiet := by
    refine ⟨hholder, ?_⟩
    rw [hcreations]
    decide
  refine ⟨s, hreach, hquiet, hcreations, (remembers_iff hreach hquiet).mpr ?_⟩
  rintro ns ⟨id, hlatest, hphase⟩
  rw [phase, hcreations] at hphase
  rcases id with _ | _ | id <;> simp at hphase

/-- The creation fails before the continuation is attached. The failed future is stored
afterwards, and every later call finds it. -/
theorem early_failure_remembered :
    ∃ s, Reaches step (fun _ choice => creating choice = true) {} s ∧ s.Quiet ∧
      s.creations = [⟨exampleProxy, .failedAtOnce⟩] ∧ s.proxies.lookup exampleProxy = some 0 ∧
      s.step (.call exampleProxy) = some s ∧ ¬ s.Remembers := by
  have hexec : (execSteps step (fun _ choice => creating choice) {}
      [.call exampleProxy, .complete 0 false, .attach, .insert]).any (fun s =>
        s.holder == none && s.creations == [⟨exampleProxy, .failedAtOnce⟩] &&
          s.proxies.lookup exampleProxy == some 0) = true := by
    decide +kernel
  obtain ⟨s, hreach, htest⟩ := of_execSteps_any hexec
  simp only [Bool.and_eq_true, beq_iff_eq] at htest
  obtain ⟨⟨hholder, hcreations⟩, hlookup⟩ := htest
  have hquiet : s.Quiet := by
    refine ⟨hholder, ?_⟩
    rw [hcreations]
    decide
  have hcall : s.step (.call exampleProxy) = some s := by
    simp [step, hholder, call, hlookup]
  refine ⟨s, hreach, hquiet, hcreations, hlookup, hcall, ?_⟩
  intro hremembers
  obtain ⟨id, -, hphase⟩ :=
    (hremembers.entry_iff exampleProxy).mp (by rw [hlookup, isSome_some])
  rw [phase, hcreations] at hphase
  rcases id with _ | id <;> simp at hphase

end ProxyCreations

end HazelcastClient.Spi
