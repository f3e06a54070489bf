import HazelcastClient.Crdt.VectorClock

/-!
# The replicas that a PN counter operation tries

An operation of `PNCounterImpl` goes to the current target replica. When the replica
fails, `try_choose_a_new_target` puts it into the set of excluded members and the request
is sent again to a replica outside of that set.

The set starts as the shared sentinel `EMPTY_ADDRESS_LIST`, for which
`try_choose_a_new_target` substitutes a new set. It does so in its own copy of the pointer.
The caller goes on with the sentinel, and therefore only the replica that has failed last
is ever excluded.

The request is sent again in a continuation that waits for the answer in a thread of the
user executor. Another thread has to complete the future it waits for.
-/

namespace HazelcastClient.Crdt

open List

inductive Kind where
  | get
  | add (delta : ℤ) (getBeforeUpdate : Bool)
  deriving DecidableEq

structure Request (U M : Type) where
  kind : Kind
  timestamps : List (U × ℤ)
  target : M

structure Answer (U : Type) where
  value : ℤ
  timestamps : List (U × ℤ)

/-- What the caller gets to see: an exception `ε` of a member, or
`no_data_member_in_cluster` with its source and message. -/
inductive Failure (ε : Type) where
  | ofMember (exception : ε)
  | noDataMemberInCluster (source message : String)

inductive Outcome (ε : Type) where
  | returned (value : ℤ)
  | threw (failure : Failure ε)

/-- What an operation meets: the data members in the order of the member list, the
configured number of replicas, what a member answers to the request with a given number,
and the size of the user executor. -/
structure Replicas (U M ε : Type) where
  dataMembers : List M
  maxConfiguredReplicaCount : ℤ
  answer : ℕ → M → Except ε (Answer U)
  executorPoolSize : ℕ

/-- The state of the proxy, the numbers drawn from `rand`, the requests sent and the threads
of the user executor that wait for one. -/
structure Counter (U M : Type) where
  currentTarget : Option M := none
  observedClock : VectorClock U := ⟨[]⟩
  drawn : ℕ := 0
  requests : List (Request U M) := []
  waiting : ℕ := 0

/-- A pointer to a set of excluded members. -/
inductive Excluded (M : Type) where
  | emptyAddressList
  | members (list : List M)

inductive Operation where
  | get
  | getAndAdd (delta : ℤ)
  | addAndGet (delta : ℤ)
  | getAndSubtract (delta : ℤ)
  | subtractAndGet (delta : ℤ)
  | decrementAndGet
  | incrementAndGet
  | getAndDecrement
  | getAndIncrement

namespace Operation

def kind : Operation → Kind
  | get => .get
  | getAndAdd delta => .add delta true
  | addAndGet delta => .add delta false
  | getAndSubtract delta => .add (-delta) true
  | subtractAndGet delta => .add (-delta) false
  | decrementAndGet => .add (-1) false
  | incrementAndGet => .add 1 false
  | getAndDecrement => .add (-1) true
  | getAndIncrement => .add 1 true

def source : Operation → String
  | get => "ClientPNCounterProxy::get"
  | getAndAdd _ => "ClientPNCounterProxy::getAndAdd"
  | addAndGet _ => "ClientPNCounterProxy::addAndGet"
  | getAndSubtract _ => "ClientPNCounterProxy::getAndSubtract"
  | subtractAndGet _ => "ClientPNCounterProxy::subtractAndGet"
  | decrementAndGet => "ClientPNCounterProxy::decrementAndGet"
  | incrementAndGet => "ClientPNCounterProxy::incrementAndGet"
  | getAndDecrement => "ClientPNCounterProxy::getAndDecrement"
  | getAndIncrement => "ClientPNCounterProxy::getAndIncrement"

end Operation

def noDataMember {ε : Type} (source : String) : Failure ε :=
  .noDataMemberInCluster source ("Cannot invoke operations on a CRDT because the cluster does " ++
    "not contain any data members")

variable {U M ε : Type}

namespace Counter

def send (s : Counter U M) (kind : Kind) (target : M) : Counter U M :=
  { s with requests := s.requests ++ [⟨kind, s.observedClock.entries, target⟩] }

/-- The request has failed, and the thread that tells so waits for the next one. -/
def wait (s : Counter U M) : Counter U M := { s with waiting := s.waiting + 1 }

/-- `update_observed_replica_timestamps` without another call in between. -/
def observe [DecidableEq U] (s : Counter U M) (received : List (U × ℤ)) : Counter U M :=
  { s with observedClock := (Crdt.observe ⟨received⟩ s.observedClock).getD s.observedClock }

def targets (s : Counter U M) : List M := s.requests.map Request.target

variable {s : Counter U M}

@[simp] theorem targets_send {kind : Kind} {target : M} :
    (s.send kind target).targets = s.targets ++ [target] := by
  simp [send, targets]

@[simp] theorem targets_wait : s.wait.targets = s.targets := rfl

@[simp] theorem targets_observe [DecidableEq U] {received : List (U × ℤ)} :
    (s.observe received).targets = s.targets := rfl

end Counter

theorem exists_draw {l : List M} {m : M} (h : m ∈ l) : ∃ i, l[i % l.length]? = some m := by
  obtain ⟨i, hi⟩ := mem_iff_getElem?.mp h
  obtain ⟨hlt, -⟩ := List.getElem?_eq_some_iff.mp hi
  exact ⟨i, by rwa [Nat.mod_eq_of_lt hlt]⟩

namespace Replicas

section Definitions

variable [DecidableEq U] [DecidableEq M] (r : Replicas U M ε) (rand : ℕ → ℕ)

def all : List M := r.dataMembers.take r.maxConfiguredReplicaCount.toNat

def replicaAddresses (excluded : List M) : List M := r.all.filter (· ∉ excluded)

def chooseTargetReplica (s : Counter U M) (excluded : List M) : Option M × Counter U M :=
  let addresses := r.replicaAddresses excluded
  if addresses.isEmpty then (none, s)
  else (addresses[rand s.drawn % addresses.length]?, { s with drawn := s.drawn + 1 })

/-- The choice under `target_selection_mutex_`. -/
def selectTarget (s : Counter U M) (excluded : List M) : Option M × Counter U M :=
  let chosen := r.chooseTargetReplica rand s excluded
  (chosen.1, { chosen.2 with currentTarget := chosen.1 })

def crdtOperationTarget (s : Counter U M) (excluded : List M) : Option M × Counter U M :=
  match s.currentTarget with
  | none => r.selectTarget rand s excluded
  | some target =>
    if target ∈ excluded then r.selectTarget rand s excluded else (some target, s)

/-- The new target, and what the caller's pointer refers to afterwards. -/
def tryChooseANewTarget (s : Counter U M) (excluded : Excluded M) (lastTarget : M) :
    Option M × Excluded M × Counter U M :=
  match excluded with
  | .emptyAddressList =>
    -- the new set is reachable from here only
    let chosen := r.crdtOperationTarget rand s [lastTarget]
    (chosen.1, .emptyAddressList, chosen.2)
  | .members list =>
    let chosen := r.crdtOperationTarget rand s (lastTarget :: list)
    (chosen.1, .members (lastTarget :: list), chosen.2)

/-- `invoke_get_internal` and `invoke_add_internal`, for at most `fuel` calls of itself. The
outcome `none` means that it is still running. It is if all threads of the user executor wait,
so that none is left to complete the request. -/
def invokeInternal (kind : Kind) :
    ℕ → Counter U M → Excluded M → Option ε → Option M → Option (Outcome ε) × Counter U M
  | 0, s, _, _, _ => (none, s)
  | _ + 1, s, _, some lastException, none => (some (.threw (.ofMember lastException)), s)
  | _ + 1, s, _, none, none =>
    (some (.threw (noDataMember "ClientPNCounterProxy::invokeGetInternal")), s)
  | fuel + 1, s, excluded, _, some target =>
    if r.executorPoolSize ≤ s.waiting then (none, s.send kind target)
    else
      match r.answer s.requests.length target with
      | .ok answer =>
        (some (.returned answer.value), (s.send kind target).observe answer.timestamps)
      | .error e =>
        let chosen := r.tryChooseANewTarget rand (s.send kind target).wait excluded target
        invokeInternal kind fuel chosen.2.2 chosen.2.1 (some e) chosen.1

def call (op : Operation) (fuel : ℕ) (s : Counter U M) : Option (Outcome ε) × Counter U M :=
  let first := r.crdtOperationTarget rand s []
  match first.1 with
  | none => (some (.threw (noDataMember op.source)), first.2)
  | some target => r.invokeInternal rand op.kind fuel first.2 .emptyAddressList none (some target)

end Definitions

variable {r : Replicas U M ε} {rand : ℕ → ℕ} {ex : Excluded M}

section Targets

variable [DecidableEq M] {s : Counter U M} {excluded : List M} {m : M} {lastTarget : M}

theorem mem_replicaAddresses : m ∈ r.replicaAddresses excluded ↔ m ∈ r.all ∧ m ∉ excluded := by
  simp [replicaAddresses]

theorem selectTarget_of_draw
    (h : (r.replicaAddresses excluded)[rand s.drawn % (r.replicaAddresses excluded).length]? =
      some m) :
    r.selectTarget rand s excluded =
      (some m, { s with currentTarget := some m, drawn := s.drawn + 1 }) := by
  have hne : (r.replicaAddresses excluded).isEmpty = false := by
    rw [isEmpty_eq_false_iff]
    exact ne_nil_of_mem (mem_of_getElem? h)
  simp [selectTarget, chooseTargetReplica, hne, h]

theorem selectTarget_cases (r : Replicas U M ε) (rand : ℕ → ℕ) (s : Counter U M)
    (excluded : List M) :
    (r.replicaAddresses excluded = [] ∧
      r.selectTarget rand s excluded = (none, { s with currentTarget := none })) ∨
    ∃ m ∈ r.replicaAddresses excluded, r.selectTarget rand s excluded =
      (some m, { s with currentTarget := some m, drawn := s.drawn + 1 }) := by
  by_cases hempty : r.replicaAddresses excluded = []
  · exact .inl ⟨hempty, by simp [selectTarget, chooseTargetReplica, hempty]⟩
  · right
    have hlt : rand s.drawn % (r.replicaAddresses excluded).length <
        (r.replicaAddresses excluded).length :=
      Nat.mod_lt _ (length_pos_iff.mpr hempty)
    have hget := List.getElem?_eq_getElem hlt
    exact ⟨_, mem_of_getElem? hget, selectTarget_of_draw hget⟩

theorem tryChooseANewTarget_empty (h : s.currentTarget = some lastTarget) :
    r.tryChooseANewTarget rand s .emptyAddressList lastTarget =
      ((r.selectTarget rand s [lastTarget]).1, .emptyAddressList,
        (r.selectTarget rand s [lastTarget]).2) := by
  simp [tryChooseANewTarget, crdtOperationTarget, h]

theorem targets_selectTarget : (r.selectTarget rand s excluded).2.targets = s.targets := by
  rcases selectTarget_cases r rand s excluded with ⟨-, h⟩ | ⟨m, -, h⟩
  · rw [h]
    rfl
  · rw [h]
    rfl

theorem targets_crdtOperationTarget :
    (r.crdtOperationTarget rand s excluded).2.targets = s.targets := by
  unfold crdtOperationTarget
  split
  · exact targets_selectTarget
  · split
    · exact targets_selectTarget
    · rfl

theorem targets_tryChooseANewTarget :
    (r.tryChooseANewTarget rand s ex lastTarget).2.2.targets = s.targets := by
  cases ex with
  | emptyAddressList | members list => exact targets_crdtOperationTarget

theorem crdtOperationTarget_cases (rand : ℕ → ℕ) {start : Option M} (clock : VectorClock U)
    (hstart : ∀ m, start = some m → m ∈ r.all) :
    (r.all = [] ∧ r.crdtOperationTarget rand { currentTarget := start, observedClock := clock } [] =
      (none, { observedClock := clock })) ∨
    ∃ first ∈ r.all, (start = some first ∨ start = none) ∧ ∃ s : Counter U M,
      r.crdtOperationTarget rand { currentTarget := start, observedClock := clock } [] =
        (some first, s) ∧ s.currentTarget = some first ∧ s.targets = [] ∧ s.waiting = 0 := by
  have hall : r.replicaAddresses [] = r.all := by simp [replicaAddresses]
  cases start with
  | some first =>
    exact .inr ⟨first, hstart first rfl, .inl rfl,
      { currentTarget := some first, observedClock := clock },
      by simp [crdtOperationTarget], rfl, rfl, rfl⟩
  | none =>
    rcases selectTarget_cases r rand { currentTarget := none, observedClock := clock } [] with
      ⟨hempty, hselect⟩ | ⟨first, hmem, hselect⟩
    · exact .inl ⟨hall ▸ hempty, hselect⟩
    · exact .inr ⟨first, hall ▸ hmem, .inr rfl, _, hselect, rfl, rfl, rfl⟩

end Targets

section Requests

variable [DecidableEq U] [DecidableEq M] {s : Counter U M} {kind : Kind} {target : M} {e : ε}
  {answer : Answer U} {clock : VectorClock U} {fuel : ℕ} {last : Option ε}

theorem invokeInternal_stuck (hbusy : r.executorPoolSize ≤ s.waiting) :
    r.invokeInternal rand kind (fuel + 1) s ex last (some target) = (none, s.send kind target) := by
  simp only [invokeInternal, if_pos hbusy]

section

variable (hfree : s.waiting < r.executorPoolSize)

include hfree

theorem invokeInternal_ok (h : r.answer s.targets.length target = .ok answer) :
    r.invokeInternal rand kind (fuel + 1) s ex last (some target) =
      (some (.returned answer.value), (s.send kind target).observe answer.timestamps) := by
  have hlen : s.targets.length = s.requests.length := length_map _
  rw [hlen] at h
  simp only [invokeInternal, h, if_neg hfree.not_ge]

theorem invokeInternal_error (h : r.answer s.targets.length target = .error e) :
    r.invokeInternal rand kind (fuel + 1) s ex last (some target) =
      r.invokeInternal rand kind fuel
        (r.tryChooseANewTarget rand (s.send kind target).wait ex target).2.2
        (r.tryChooseANewTarget rand (s.send kind target).wait ex target).2.1 (some e)
        (r.tryChooseANewTarget rand (s.send kind target).wait ex target).1 := by
  have hlen : s.targets.length = s.requests.length := length_map _
  rw [hlen] at h
  simp only [invokeInternal, h, if_neg hfree.not_ge]

theorem invokeInternal_failed (hcur : s.currentTarget = some target)
    (h : r.answer s.targets.length target = .error e) :
    r.invokeInternal rand kind (fuel + 1) s .emptyAddressList last (some target) =
      r.invokeInternal rand kind fuel (r.selectTarget rand (s.send kind target).wait [target]).2
        .emptyAddressList (some e) (r.selectTarget rand (s.send kind target).wait [target]).1 := by
  have hcur' : (s.send kind target).wait.currentTarget = some target := hcur
  rw [invokeInternal_error hfree h, tryChooseANewTarget_empty hcur']

end

theorem targets_isPrefix (r : Replicas U M ε) (rand : ℕ → ℕ) (kind : Kind) (fuel : ℕ)
    (s : Counter U M) (ex : Excluded M) (last : Option ε) (target : Option M) :
    s.targets <+: (r.invokeInternal rand kind fuel s ex last target).2.targets := by
  induction fuel generalizing s ex last target with
  | zero => exact prefix_rfl
  | succ fuel ih =>
    cases target with
    | none => cases last <;> exact prefix_rfl
    | some target =>
      have hsent : s.targets <+: (s.send kind target).targets := by
        rw [Counter.targets_send]
        exact prefix_append _ _
      rcases le_or_gt r.executorPoolSize s.waiting with hbusy | hfree
      · rw [invokeInternal_stuck hbusy]
        exact hsent
      cases hanswer : r.answer s.targets.length target with
      | ok answer =>
        rw [invokeInternal_ok hfree hanswer]
        exact hsent
      | error e =>
        rw [invokeInternal_error hfree hanswer]
        have hsame : (r.tryChooseANewTarget rand (s.send kind target).wait ex target).2.2.targets =
            (s.send kind target).wait.targets := targets_tryChooseANewTarget
        refine hsent.trans ?_
        rw [← Counter.targets_wait, ← hsame]
        exact ih _ _ _ _

/-- The outcome that belongs to the requests: the answer of the first one that did not
fail, or the last exception after every replica has failed. -/
def Ends (r : Replicas U M ε) (op : Operation) (targets : List M) : Outcome ε → Prop
  | .returned value => ∃ (failed : List ε) (answer : Answer U),
      targets.mapIdx r.answer = failed.map .error ++ [.ok answer] ∧ answer.value = value
  | .threw failure => ∃ failed : List ε, targets.mapIdx r.answer = failed.map .error ∧
      (∀ m ∈ r.all, m ∈ targets) ∧
      failure = failed.getLast?.elim (noDataMember op.source) .ofMember

/-- The operation comes to an end, with an outcome that belongs to its requests, and has
sent at most one request to each replica. -/
def TriesEachOnce (r : Replicas U M ε) (rand : ℕ → ℕ) (op : Operation) (s : Counter U M) : Prop :=
  ∃ fuel outcome s', r.call rand op fuel s = (some outcome, s') ∧ s'.targets.Nodup ∧
    s'.targets.length ≤ r.all.length ∧ r.Ends op s'.targets outcome

/-- Two replicas fail one after the other: the target `start`, or any replica if there is
none, and another one at the second request. -/
def FailsTwice (r : Replicas U M ε) (start : Option M) : Prop :=
  ∃ first ∈ r.all, ∃ second ∈ r.all, first ≠ second ∧ (start = some first ∨ start = none) ∧
    (∃ e, r.answer 0 first = .error e) ∧ ∃ e, r.answer 1 second = .error e

/-- The target `start`, or any replica if there is none, fails, and there is another
replica. -/
def Retries (r : Replicas U M ε) (start : Option M) : Prop :=
  ∃ first ∈ r.all, ∃ second ∈ r.all, first ≠ second ∧ (start = some first ∨ start = none) ∧
    ∃ e, r.answer 0 first = .error e

section Ended

variable {fuel : ℕ} {ex : Excluded M} {last : Option ε} {outcome : Outcome ε} {s' : Counter U M}

theorem free_of_ended
    (h : r.invokeInternal rand kind fuel s ex last (some target) = (some outcome, s')) :
    s.waiting < r.executorPoolSize := by
  cases fuel with
  | zero => exact absurd h (by simp [invokeInternal])
  | succ fuel =>
    by_contra hbusy
    rw [invokeInternal_stuck (not_lt.mp hbusy)] at h
    exact absurd h (by simp)

theorem target_sent
    (h : r.invokeInternal rand kind fuel s ex last (some target) = (some outcome, s')) :
    s.targets ++ [target] <+: s'.targets := by
  have hfree := free_of_ended h
  cases fuel with
  | zero => exact absurd h (by simp [invokeInternal])
  | succ fuel =>
    cases hanswer : r.answer s.targets.length target with
    | ok answer =>
      rw [invokeInternal_ok hfree hanswer, Prod.mk.injEq] at h
      have htargets : s'.targets = s.targets ++ [target] := by
        rw [← h.2, Counter.targets_observe, Counter.targets_send]
      exact htargets ▸ prefix_rfl
    | error e =>
      rw [invokeInternal_error hfree hanswer] at h
      have hprefix := targets_isPrefix r rand kind fuel
        (r.tryChooseANewTarget rand (s.send kind target).wait ex target).2.2
        (r.tryChooseANewTarget rand (s.send kind target).wait ex target).2.1 (some e)
        (r.tryChooseANewTarget rand (s.send kind target).wait ex target).1
      rw [h, targets_tryChooseANewTarget, Counter.targets_wait, Counter.targets_send] at hprefix
      exact hprefix

theorem exists_next {next : M} (hcur : s.currentTarget = some target)
    (herror : r.answer s.targets.length target = .error e)
    (hdraw : (r.replicaAddresses [target])[rand s.drawn %
      (r.replicaAddresses [target]).length]? = some next)
    (h : r.invokeInternal rand kind fuel s .emptyAddressList last (some target) =
      (some outcome, s')) :
    ∃ fuel' s₁, s₁.currentTarget = some next ∧ s₁.drawn = s.drawn + 1 ∧
      s₁.waiting = s.waiting + 1 ∧ s₁.targets = s.targets ++ [target] ∧
      r.invokeInternal rand kind fuel' s₁ .emptyAddressList (some e) (some next) =
        (some outcome, s') := by
  have hfree := free_of_ended h
  cases fuel with
  | zero => exact absurd h (by simp [invokeInternal])
  | succ fuel =>
    have hselect : r.selectTarget rand (s.send kind target).wait [target] =
        (some next, { (s.send kind target).wait with
          currentTarget := some next, drawn := s.drawn + 1 }) := selectTarget_of_draw hdraw
    have hsent : (s.send kind target).targets = s.targets ++ [target] := Counter.targets_send
    rw [invokeInternal_failed hfree hcur herror, hselect] at h
    exact ⟨fuel, { (s.send kind target).wait with
      currentTarget := some next, drawn := s.drawn + 1 }, rfl, rfl, rfl, hsent, h⟩

/-- When two replicas have failed, the third request may go to the first one again. -/
theorem not_nodup_of_draws {first second : M} {e₁ e₂ : ε} (hfirst : r.answer 0 first = .error e₁)
    (hsecond : r.answer 1 second = .error e₂) (hcur : s.currentTarget = some first)
    (hnil : s.targets = [])
    (hdraw₁ : (r.replicaAddresses [first])[rand s.drawn %
      (r.replicaAddresses [first]).length]? = some second)
    (hdraw₂ : (r.replicaAddresses [second])[rand (s.drawn + 1) %
      (r.replicaAddresses [second]).length]? = some first)
    (h : r.invokeInternal rand kind fuel s .emptyAddressList last (some first) =
      (some outcome, s')) : ¬ s'.targets.Nodup := by
  have herror₁ : r.answer s.targets.length first = .error e₁ := by rwa [hnil]
  obtain ⟨fuel₁, s₁, hcur₁, hdrawn₁, -, hsent₁, h₁⟩ := exists_next hcur herror₁ hdraw₁ h
  rw [hnil, nil_append] at hsent₁
  rw [← hdrawn₁] at hdraw₂
  have herror₂ : r.answer s₁.targets.length second = .error e₂ := by
    rw [hsent₁]
    exact hsecond
  obtain ⟨fuel₂, s₂, -, -, -, hsent₂, h₂⟩ := exists_next hcur₁ herror₂ hdraw₂ h₁
  obtain ⟨rest, hrest⟩ := target_sent h₂
  rw [hsent₂, hsent₁] at hrest
  rw [← hrest]
  simp

end Ended

/-- There are draws with which the operation begins with a given replica and sends its
second request, if there is one, to another one. -/
theorem exists_draws (op : Operation) {start : Option M} {first second : M} (clock : VectorClock U)
    (hfirst : first ∈ r.all) (hsecond : second ∈ r.all) (hne : first ≠ second)
    (hstart : start = some first ∨ start = none) : ∃ (rand : ℕ → ℕ) (s : Counter U M),
      s.currentTarget = some first ∧ s.targets = [] ∧ s.waiting = 0 ∧
      (∀ fuel, r.call rand op fuel { currentTarget := start, observedClock := clock } =
        r.invokeInternal rand op.kind fuel s .emptyAddressList none (some first)) ∧
      (r.replicaAddresses [first])[rand s.drawn % (r.replicaAddresses [first]).length]? =
        some second ∧
      (r.replicaAddresses [second])[rand (s.drawn + 1) %
        (r.replicaAddresses [second]).length]? = some first := by
  obtain ⟨i₀, hi₀⟩ := exists_draw (l := r.replicaAddresses []) (m := first)
    (mem_replicaAddresses.mpr ⟨hfirst, by simp⟩)
  obtain ⟨i₁, hi₁⟩ := exists_draw (l := r.replicaAddresses [first]) (m := second)
    (mem_replicaAddresses.mpr ⟨hsecond, by simpa using hne.symm⟩)
  obtain ⟨i₂, hi₂⟩ := exists_draw (l := r.replicaAddresses [second]) (m := first)
    (mem_replicaAddresses.mpr ⟨hfirst, by simpa using hne⟩)
  rcases hstart with rfl | rfl
  · exact ⟨fun n => if n = 0 then i₁ else i₂, { currentTarget := some first, observedClock := clock },
      rfl, rfl, rfl, fun _ => rfl, hi₁, hi₂⟩
  · refine ⟨fun n => if n = 0 then i₀ else if n = 1 then i₁ else i₂,
      { currentTarget := some first, observedClock := clock, drawn := 1 }, rfl, rfl, rfl,
      fun fuel => ?_, hi₁, hi₂⟩
    have hselect : r.selectTarget (fun n => if n = 0 then i₀ else if n = 1 then i₁ else i₂)
        { currentTarget := none, observedClock := clock } [] =
        (some first, { currentTarget := some first, observedClock := clock, drawn := 1 }) :=
      selectTarget_of_draw hi₀
    simp only [call, crdtOperationTarget, hselect]

/-- With two failures in a row there are draws with which the first replica gets a second
request. -/
theorem not_triesEachOnce_of_failsTwice {op : Operation} {start : Option M}
    (h : r.FailsTwice start) :
    ∃ rand, ¬ r.TriesEachOnce rand op { currentTarget := start, observedClock := clock } := by
  obtain ⟨first, hfirst, second, hsecond, hne, hstart, ⟨e₁, herror₁⟩, e₂, herror₂⟩ := h
  obtain ⟨rand, s, hcur, hnil, -, hcalls, hdraw₁, hdraw₂⟩ :=
    exists_draws op clock hfirst hsecond hne hstart
  refine ⟨rand, ?_⟩
  rintro ⟨fuel, outcome, s', hcall, hnodup, -, -⟩
  rw [hcalls] at hcall
  exact not_nodup_of_draws herror₁ herror₂ hcur hnil hdraw₁ hdraw₂ hcall hnodup

/-- A single thread of the executor waits for the second request, and none is left to complete
it. -/
theorem not_triesEachOnce_of_retries {op : Operation} {start : Option M} (h : r.Retries start)
    (hpool : r.executorPoolSize < 2) :
    ∃ rand, ¬ r.TriesEachOnce rand op { currentTarget := start, observedClock := clock } := by
  obtain ⟨first, hfirst, second, hsecond, hne, hstart, e, herror⟩ := h
  obtain ⟨rand, s, hcur, hnil, hidle, hcalls, hdraw, -⟩ :=
    exists_draws op clock hfirst hsecond hne hstart
  refine ⟨rand, ?_⟩
  rintro ⟨fuel, outcome, s', hcall, -⟩
  rw [hcalls] at hcall
  have herror' : r.answer s.targets.length first = .error e := by rwa [hnil]
  obtain ⟨fuel₁, s₁, -, -, hwaiting, -, h₁⟩ := exists_next hcur herror' hdraw hcall
  have hfree := free_of_ended h₁
  omega

structure Begins (r : Replicas U M ε) (rand : ℕ → ℕ) (op : Operation) (start s : Counter U M)
    (first : M) : Prop where
  call : ∀ fuel, r.call rand op fuel start =
    r.invokeInternal rand op.kind fuel s .emptyAddressList none (some first)
  current : s.currentTarget = some first
  targets : s.targets = []
  free : s.waiting < r.executorPoolSize
  mem : first ∈ r.all

namespace Begins

variable {op : Operation} {start : Counter U M} {first second : M} {e₀ : ε}

section

variable (h : r.Begins rand op start s first)

include h

theorem targets_send : (s.send op.kind first).targets = [first] := by
  rw [Counter.targets_send, h.targets, nil_append]

theorem of_ok (hok : r.answer 0 first = .ok answer) : r.TriesEachOnce rand op start := by
  have hanswer : r.answer s.targets.length first = .ok answer := by rwa [h.targets]
  refine ⟨1, _, _, (h.call 1).trans (invokeInternal_ok h.free hanswer), ?_⟩
  rw [Counter.targets_observe, h.targets_send]
  refine ⟨nodup_singleton first, length_pos_of_mem h.mem, [], answer, ?_, rfl⟩
  simp [hok]

theorem of_alone (herror : r.answer 0 first = .error e₀) (hnone : r.replicaAddresses [first] = [])
    (hselect : r.selectTarget rand (s.send op.kind first).wait [first] =
      (none, { (s.send op.kind first).wait with currentTarget := none })) :
    r.TriesEachOnce rand op start := by
  have hanswer : r.answer s.targets.length first = .error e₀ := by rwa [h.targets]
  have hend : r.call rand op 2 start =
      (some (.threw (.ofMember e₀)),
        { (s.send op.kind first).wait with currentTarget := none }) := by
    rw [h.call, invokeInternal_failed h.free h.current hanswer, hselect]
    rfl
  have hsent : ({ (s.send op.kind first).wait with currentTarget := none } :
      Counter U M).targets = [first] := h.targets_send
  refine ⟨2, _, _, hend, ?_⟩
  rw [hsent]
  refine ⟨nodup_singleton first, length_pos_of_mem h.mem, [e₀], by simp [herror],
    fun m hm => ?_, rfl⟩
  by_contra hnot
  have hother : m ∈ r.replicaAddresses [first] := mem_replicaAddresses.mpr ⟨hm, hnot⟩
  rw [hnone] at hother
  exact absurd hother not_mem_nil

theorem of_second (hspare : s.waiting + 1 < r.executorPoolSize)
    (herror : r.answer 0 first = .error e₀) (hmem : second ∈ r.all)
    (hne : first ≠ second) (hok : r.answer 1 second = .ok answer)
    (hselect : r.selectTarget rand (s.send op.kind first).wait [first] =
      (some second, { (s.send op.kind first).wait with
        currentTarget := some second, drawn := (s.send op.kind first).wait.drawn + 1 })) :
    r.TriesEachOnce rand op start := by
  let s₁ : Counter U M := { (s.send op.kind first).wait with
    currentTarget := some second, drawn := (s.send op.kind first).wait.drawn + 1 }
  have hsent : s₁.targets = [first] := h.targets_send
  have hanswer₀ : r.answer s.targets.length first = .error e₀ := by rwa [h.targets]
  have hanswer₁ : r.answer s₁.targets.length second = .ok answer := by
    rw [hsent]
    exact hok
  have hend : r.call rand op 2 start =
      (some (.returned answer.value), (s₁.send op.kind second).observe answer.timestamps) := by
    rw [h.call, invokeInternal_failed h.free h.current hanswer₀, hselect]
    exact invokeInternal_ok hspare hanswer₁
  have hnodup : [first, second].Nodup := by simpa using hne
  have hsub : [first, second] ⊆ r.all :=
    cons_subset.mpr ⟨h.mem, cons_subset.mpr ⟨hmem, nil_subset _⟩⟩
  refine ⟨2, _, _, hend, ?_⟩
  rw [Counter.targets_observe, Counter.targets_send, hsent]
  refine ⟨hnodup, (subperm_of_subset hnodup hsub).length_le, [e₀], answer, ?_, rfl⟩
  simp [herror, hok]

end

end Begins

/-- When no two replicas fail one after the other, the second request is the last one. -/
theorem triesEachOnce_of_not_failsTwice {op : Operation} {start : Option M}
    (hpool : 0 < r.executorPoolSize) (hstart : ∀ m, start = some m → m ∈ r.all)
    (h : ¬ r.FailsTwice start) (hspare : r.Retries start → 2 ≤ r.executorPoolSize)
    (rand : ℕ → ℕ) :
    r.TriesEachOnce rand op { currentTarget := start, observedClock := clock } := by
  rcases crdtOperationTarget_cases rand clock hstart with
    ⟨hempty, htarget⟩ | ⟨first, hfirst, hpossible, s, htarget, hcur, hnil, hidle⟩
  · refine ⟨0, .threw (noDataMember op.source), { observedClock := clock }, ?_, ?_, ?_, [], ?_⟩
    · simp only [call, htarget]
    · exact nodup_nil
    · exact Nat.zero_le _
    · exact ⟨rfl, by simp [hempty], rfl⟩
  · have hbegins : r.Begins rand op { currentTarget := start, observedClock := clock } s first :=
      ⟨fun fuel => by simp only [call, htarget], hcur, hnil, hidle ▸ hpool, hfirst⟩
    cases hanswer₀ : r.answer 0 first with
    | ok answer => exact hbegins.of_ok hanswer₀
    | error e₀ =>
      rcases selectTarget_cases r rand (s.send op.kind first).wait [first] with
        ⟨hnone, hselect⟩ | ⟨second, hsecond, hselect⟩
      · exact hbegins.of_alone hanswer₀ hnone hselect
      · obtain ⟨hmem, hnot⟩ := mem_replicaAddresses.mp hsecond
        have hne : first ≠ second := fun heq => hnot (heq ▸ mem_singleton_self _)
        have htwo := hspare ⟨first, hfirst, second, hmem, hne, hpossible, e₀, hanswer₀⟩
        cases hanswer₁ : r.answer 1 second with
        | error e₁ =>
          exact absurd ⟨first, hfirst, second, hmem, hne, hpossible, ⟨e₀, hanswer₀⟩, e₁,
            hanswer₁⟩ h
        | ok answer => exact hbegins.of_second (by omega) hanswer₀ hmem hne hanswer₁ hselect

/-- Whatever is drawn, an operation tries each replica at most once, exactly when no two
replicas fail one after the other, and a second thread is there if the request is sent again. -/
theorem triesEachOnce_iff (r : Replicas U M ε) (op : Operation) (start : Option M)
    (clock : VectorClock U) (hpool : 0 < r.executorPoolSize)
    (hstart : ∀ m, start = some m → m ∈ r.all) :
    (∀ rand, r.TriesEachOnce rand op { currentTarget := start, observedClock := clock }) ↔
      ¬ r.FailsTwice start ∧ (r.Retries start → 2 ≤ r.executorPoolSize) := by
  constructor
  · intro h
    refine ⟨fun htwice => ?_, fun hretries => ?_⟩
    · obtain ⟨rand, hnot⟩ := not_triesEachOnce_of_failsTwice htwice
      exact hnot (h rand)
    · by_contra hpool
      obtain ⟨rand, hnot⟩ := not_triesEachOnce_of_retries hretries (not_le.mp hpool)
      exact hnot (h rand)
  · rintro ⟨h, hspare⟩ rand
    exact triesEachOnce_of_not_failsTwice hpool hstart h hspare rand

/-- One of three replicas is down, and it is the current target. -/
theorem triesEachOnce_one_down :
    Replicas.TriesEachOnce (U := ℕ) (M := ℕ) (ε := String)
      ⟨[1, 2, 3], 3, fun _ m => if m = 2 then .error "down" else .ok ⟨7, []⟩, 2⟩ (fun _ => 0) .get
      { currentTarget := some 2, observedClock := .empty } := by
  refine (triesEachOnce_iff _ .get (some 2) .empty (by decide) ?_).mpr ⟨?_, fun _ => le_refl 2⟩
    fun _ => 0
  · rintro m ⟨⟩
    decide
  · rintro ⟨first, -, second, -, hne, hstart, -, e, hsecond⟩
    obtain rfl : 2 = first := by simpa using hstart
    simp [hne.symm] at hsecond

/-- While all replicas fail, an operation that has two of them goes on forever. -/
theorem invokeInternal_eq_none (hfail : ∀ n m, ∃ e, r.answer n m = .error e)
    (hother : ∀ m, r.replicaAddresses [m] ≠ []) {fuel : ℕ} {last : Option ε}
    (hcur : s.currentTarget = some target) :
    (r.invokeInternal rand kind fuel s .emptyAddressList last (some target)).1 = none := by
  induction fuel generalizing s last target with
  | zero => rfl
  | succ fuel ih =>
    rcases le_or_gt r.executorPoolSize s.waiting with hbusy | hfree
    · rw [invokeInternal_stuck hbusy]
    obtain ⟨e, he⟩ := hfail s.targets.length target
    rcases selectTarget_cases r rand (s.send kind target).wait [target] with
      ⟨hnone, -⟩ | ⟨next, -, hselect⟩
    · exact absurd hnone (hother target)
    · rw [invokeInternal_failed hfree hcur he, hselect]
      exact ih rfl

def allDown : Replicas ℕ ℕ String := ⟨[1, 2], 2, fun _ _ => .error "down", 8⟩

/-- The requests go from one replica to the other and back, and the operation does not
end. -/
theorem call_never_ends :
    (allDown.call (fun _ => 0) .get 4 { currentTarget := some 1 }).2.targets = [1, 2, 1, 2] ∧
      ¬ allDown.TriesEachOnce (fun _ => 0) .get { currentTarget := some 1 } := by
  refine ⟨by decide, ?_⟩
  rintro ⟨fuel, outcome, s', hcall, -⟩
  have hother : ∀ m, allDown.replicaAddresses [m] ≠ [] := by
    intro m hempty
    by_cases hm : m = 1
    · subst hm
      exact absurd hempty (by decide)
    · have hone : 1 ∈ allDown.replicaAddresses [m] :=
        mem_replicaAddresses.mpr ⟨by decide, by simpa using Ne.symm hm⟩
      rw [hempty] at hone
      exact absurd hone not_mem_nil
  have hnone : (allDown.call (fun _ => 0) .get fuel { currentTarget := some 1 }).1 = none :=
    invokeInternal_eq_none (fun _ _ => ⟨_, rfl⟩) hother rfl
  rw [hcall] at hnone
  exact absurd hnone (by simp)

end Requests

end Replicas

end HazelcastClient.Crdt
