import HazelcastClient.Cp.FencedLock

/-!
# Attempts of a lock call

A `lock` or `try_lock` whose session has expired is to try again. The second attempt is
made in the continuation of the first one, in the head of a loop without a body: when it
fails in the same way, `lock` spins. `try_lock` does not get that far, since its attempts
never ask for another one.

Here one call runs alone. Its lookups and the answers to its requests are given by a
script, numbered by the requests before them. The second attempt blocks a thread of the user
executor, and the futures that it waits for are completed by another one.
-/

namespace HazelcastClient.Cp.FencedLock

open Interleaving List Function Proxy Frame

structure Script where
  start : ℕ → ℤ
  lookup : ℕ → Lookup
  now : ℕ → ℤ
  answer : ℕ → Answer
  /-- the threads of the user executor besides the one that the second attempt is made in -/
  otherThreads : ℕ

structure Alone where
  shared : State
  stack : List Frame
  events : List Event

def Event.isSent : Event → Bool
  | sent _ _ => true
  | _ => false

def sentCount (events : List Event) : ℕ := (events.filter Event.isSent).length

@[simp] theorem sentCount_nil : sentCount [] = 0 := rfl

@[simp] theorem sentCount_sent (c : Call) (session : ℤ) : sentCount [.sent c session] = 1 := rfl

@[simp] theorem sentCount_append (events more : List Event) :
    sentCount (events ++ more) = sentCount events + sentCount more := by
  simp [sentCount]

namespace Script

def choice (script : Script) (sent : ℕ) : Frame → Choice
  | .session _ => .lookup (script.start sent) (script.lookup sent)
  | .answer _ _ _ => .answer (script.now (sent - 1)) (script.answer (sent - 1))
  | _ => .go

/-- The second attempt waits in a thread of the executor, for the answer to its request or to
the one for a new session. -/
def waits (script : Script) (s : State) (sent : ℕ) : Frame → Bool
  | .session c => c.op = .lock && c.second &&
      !s.manager.session.any fun state => state.isValid (script.lookup sent).now
  | .answer c _ _ => c.op = .lock && c.second
  | _ => false

def blocked (script : Script) (s : State) (sent : ℕ) (f : Frame) : Bool :=
  script.waits s sent f && script.otherThreads = 0

def step (script : Script) (p : Proxy) (a : Alone) : Alone :=
  match a.stack with
  | [] => a
  | f :: stack =>
    if script.blocked a.shared (sentCount a.events) f then a
    else
      match p.fire a.shared (script.choice (sentCount a.events) f) f with
      | none => a
      | some e => ⟨e.shared, e.next ++ stack, a.events ++ e.event.toList⟩

def run (script : Script) (p : Proxy) (s : State) (c : Call) (n : ℕ) : Alone :=
  (script.step p)^[n] ⟨s, [.session c], []⟩

end Script

variable {script : Script} {p : Proxy} {e : Effect State Unit Frame Event} {fence : ℤ}

section Step

variable {s : State} {f : Frame} {stack : List Frame} {events : List Event}

/-- A second attempt has a thread that completes what it waits for. -/
def Script.Spare (script : Script) (c : Call) : Prop :=
  c.op = .lock → c.second = true → 0 < script.otherThreads

section

variable {c : Call} {sent : ℕ} (hspare : script.Spare c)

include hspare

theorem blocked_session : script.blocked s sent (.session c) = false := by
  rw [Bool.eq_false_iff]
  simp only [Script.blocked, Script.waits, Bool.and_eq_true, decide_eq_true_eq, ne_eq]
  rintro ⟨⟨⟨hop, hsecond⟩, -⟩, hzero⟩
  exact (hspare hop hsecond).ne' hzero

theorem blocked_answer {session start : ℤ} :
    script.blocked s sent (.answer c session start) = false := by
  rw [Bool.eq_false_iff]
  simp only [Script.blocked, Script.waits, Bool.and_eq_true, decide_eq_true_eq, ne_eq]
  rintro ⟨⟨hop, hsecond⟩, hzero⟩
  exact (hspare hop hsecond).ne' hzero

end

theorem step_of_fire (hfree : script.blocked s (sentCount events) f = false)
    (h : p.fire s (script.choice (sentCount events) f) f = some e) :
    script.step p ⟨s, f :: stack, events⟩ =
      ⟨e.shared, e.next ++ stack, events ++ e.event.toList⟩ := by
  simp only [Script.step, hfree, Bool.false_eq_true, if_false, h]

theorem step_of_stuck (h : script.blocked s (sentCount events) f = true ∨
    p.fire s (script.choice (sentCount events) f) f = none) :
    script.step p ⟨s, f :: stack, events⟩ = ⟨s, f :: stack, events⟩ := by
  cases hblocked : script.blocked s (sentCount events) f with
  | true => simp only [Script.step, hblocked, if_true]
  | false =>
    rw [hblocked] at h
    simp only [Script.step, hblocked, Bool.false_eq_true, if_false, h.resolve_left nofun]

end Step

/-- Every step of a call that runs alone is a step of the machine. -/
theorem run_of_alone (script : Script) (p : Proxy) (a : Alone) (n : ℕ) :
    ∃ events, ((script.step p)^[n] a).events = a.events ++ events ∧
      Run p.machine Always ⟨a.shared, [⟨(), a.stack⟩]⟩ events
        ⟨((script.step p)^[n] a).shared, [⟨(), ((script.step p)^[n] a).stack⟩]⟩ := by
  induction n with
  | zero => exact ⟨[], by simp, Run.refl _⟩
  | succ n ih =>
    obtain ⟨events, hevents, hrun⟩ := ih
    rw [iterate_succ_apply']
    generalize (script.step p)^[n] a = b at hevents hrun
    obtain ⟨s, stack, es⟩ := b
    cases stack with
    | nil => exact ⟨events, hevents, hrun⟩
    | cons f stack =>
      cases hblocked : script.blocked s (sentCount es) f with
      | true =>
        rw [step_of_stuck (.inl hblocked)]
        exact ⟨events, hevents, hrun⟩
      | false =>
      cases hfire : p.fire s (script.choice (sentCount es) f) f with
      | none =>
        rw [step_of_stuck (.inr hfire)]
        exact ⟨events, hevents, hrun⟩
      | some e =>
        rw [step_of_fire hblocked hfire]
        refine ⟨events ++ e.event.toList, ?_, ?_⟩
        · show es ++ e.event.toList = a.events ++ (events ++ e.event.toList)
          rw [show es = a.events ++ events from hevents, append_assoc]
        · have hstep : Step p.machine ⟨s, [⟨(), f :: stack⟩]⟩
              (.frame f (script.choice (sentCount es) f)) e.event
              ⟨e.shared, [⟨(), e.next ++ stack⟩]⟩ := by
            have hs := Step.frame (M := p.machine) [] [] () f stack
              (script.choice (sentCount es) f) hfire
            rwa [p.spawned_of_fire hfire] at hs
          exact Run.tail hrun trivial hstep

/-- The calling thread holds no lock, and there is a session for every attempt. -/
structure Ready (script : Script) (s : State) (c : Call) : Prop where
  running : s.manager.running = true
  sessions : ∀ n, ∃ new, (script.lookup n).response = .ok new
  free : s.lockedSessionIds.lookup c.thread = none

section Steps

variable {s : State} {c : Call} {events : List Event} {stack : List Frame} {n m : ℕ} {after : After}
  {session start : ℤ}

/-- A call that does not move any more has reached its end or will not reach it. -/
theorem iterate_of_fixed {a : Alone} (hfixed : script.step p a = a) {b : Alone}
    (hreach : (script.step p)^[n] b = a) (hle : n ≤ m) : (script.step p)^[m] b = a := by
  obtain ⟨k, rfl⟩ := Nat.exists_eq_add_of_le hle
  rw [Nat.add_comm, iterate_add_apply, hreach]
  exact iterate_fixed hfixed k

theorem exists_sent (p : Proxy) (events : List Event) (hacquires : c.op.acquires = true)
    (hspare : script.Spare c) (hready : Ready script s c) :
    ∃ m session, m.running = true ∧
      (script.step p)^[3] ⟨s, [.session c], events⟩ =
        ⟨{ s with manager := m }, [.answer c session (script.start (sentCount events))],
          events ++ [.sent c session]⟩ := by
  obtain ⟨new, hnew⟩ := hready.sessions (sentCount events)
  obtain ⟨session, m, hacq, hstill⟩ :=
    SessionManager.exists_acquireSession hready.running hnew 1
  have hneeds := Op.needsSession_of_acquires hacquires
  let start := script.start (sentCount events)
  have hsession : script.step p ⟨s, [.session c], events⟩ =
      ⟨{ s with manager := m }, [.verify c session start], events⟩ := by
    rw [step_of_fire (blocked_session hspare)
      (e := { shared := { s with manager := m }, next := [.verify c session start] })]
    · simp
    · simp [fire, Script.choice, fireSession, hacquires, hacq, start]
  have hverify : script.step p ⟨{ s with manager := m }, [.verify c session start], events⟩ =
      ⟨{ s with manager := m }, [.send c session start], events⟩ := by
    rw [step_of_fire rfl
      (e := { shared := { s with manager := m }, next := [.send c session start] })]
    · simp
    · simp [fire, fireVerify, hready.free, proceed, hneeds]
  have hsend : script.step p ⟨{ s with manager := m }, [.send c session start], events⟩ =
      ⟨{ s with manager := m }, [.answer c session start], events ++ [.sent c session]⟩ := rfl
  refine ⟨m, session, hstill, ?_⟩
  rw [iterate_succ_apply, hsession, iterate_succ_apply, hverify,
    iterate_one, hsend]

theorem step_answer {frames : List Frame} (hspare : script.Spare c)
    (h : p.answered c session (script.now (sentCount events) - start)
      (script.answer (sentCount events)) = some frames) :
    script.step p ⟨s, [.answer c session start], events ++ [.sent c session]⟩ =
      ⟨s, frames, events ++ [.sent c session]⟩ := by
  rw [step_of_fire (blocked_answer hspare) (e := { shared := s, next := frames })]
  · simp
  · simp [fire, Script.choice, h]

theorem iterate_locked {session start fence : ℤ} (hacquires : c.op.acquires = true)
    (hspare : script.Spare c) (h : script.answer (sentCount events) = .fence fence)
    (hvalid : fence ≠ invalidFence) :
    (script.step p)^[2] ⟨s, [.answer c session start], events ++ [.sent c session]⟩ =
      ⟨{ s with lockedSessionIds := s.lockedSessionIds.insert c.thread session }, [],
        events ++ [.sent c session, .locked c session fence]⟩ := by
  have hanswered : p.answered c session (script.now (sentCount events) - start)
      (script.answer (sentCount events)) = some [.locked c session fence] := by
    rw [h]
    cases hop : c.op with
    | lock => simp [answered, hop, lockAnswered, hvalid]
    | tryLock timeout => simp [answered, hop, tryLockAnswered, hvalid]
    | _ => rw [hop] at hacquires; cases hacquires
  rw [iterate_succ_apply, step_answer hspare hanswered, iterate_one, step_of_fire rfl rfl]
  simp

theorem iterate_expired (hspare : script.Spare c)
    (hanswered : p.answered c session (script.now (sentCount events) - start)
      (script.answer (sentCount events)) =
        some [.invalidate c session, .verifyNone c after])
    (hfree : s.lockedSessionIds.lookup c.thread = none) :
    (script.step p)^[3] ⟨s, [.answer c session start], events ++ [.sent c session]⟩ =
      ⟨{ manager := s.manager.invalidateSession session
         lockedSessionIds := s.lockedSessionIds.erase c.thread },
        [.done c after], events ++ [.sent c session]⟩ := by
  rw [iterate_succ_apply, step_answer hspare hanswered, iterate_succ_apply,
    step_of_fire rfl rfl, iterate_one, nil_append, Option.toList_none, append_nil,
    step_of_fire rfl rfl]
  simp [fireVerifyNone, hfree]

theorem exists_done (p : Proxy) (events : List Event) (hacquires : c.op.acquires = true)
    (hspare : script.Spare c) (hready : Ready script s c)
    (hexpired : script.answer (sentCount events) = .error .sessionExpired)
    (hafter : ∀ session elapsed, p.answered c session elapsed (.error .sessionExpired) =
      some [.invalidate c session, .verifyNone c after]) :
    ∃ (s' : State) (session : ℤ), Ready script s' c ∧ s'.manager.session = none ∧
      (script.step p)^[6] ⟨s, [.session c], events⟩ =
        ⟨s', [.done c after], events ++ [.sent c session]⟩ := by
  obtain ⟨m, session, hstill, hsent⟩ := exists_sent p events hacquires hspare hready
  refine ⟨{ manager := m.invalidateSession session
            lockedSessionIds := s.lockedSessionIds.erase c.thread }, session,
    ⟨hstill, hready.sessions, AList.lookup_erase _ _⟩, rfl, ?_⟩
  rw [iterate_add_apply _ 3 3, hsent]
  refine iterate_expired hspare ?_ hready.free
  rw [hexpired]
  exact hafter _ _

theorem exists_locked (p : Proxy) (events : List Event) (hacquires : c.op.acquires = true)
    (hspare : script.Spare c) (hready : Ready script s c)
    (hanswer : script.answer (sentCount events) = .fence fence)
    (hvalid : fence ≠ invalidFence) :
    ∃ (s' : State) (session : ℤ), (script.step p)^[5] ⟨s, [.session c], events⟩ =
      ⟨s', [], events ++ [.sent c session, .locked c session fence]⟩ := by
  obtain ⟨m, session, -, hsent⟩ := exists_sent p events hacquires hspare hready
  rw [iterate_add_apply _ 2 3, hsent, iterate_locked hacquires hspare hanswer hvalid]
  exact ⟨_, session, rfl⟩

end Steps

structure Completes (a : Alone) (c : Call) (fence : ℤ) (requests : ℕ) : Prop where
  ended : a.stack = []
  locked : ∃ c' session, a.events.getLast? = some (.locked c' session fence)
  requests : sentCount a.events = requests
  uid : ∀ c' session, .sent c' session ∈ a.events → c'.uid = c.uid

theorem answered_lock_expired {c : Call} (hop : c.op = .lock) (session elapsed : ℤ) :
    p.answered c session elapsed (.error .sessionExpired) =
      some [.invalidate c session, .verifyNone c (.attempt invalidFence true)] := by
  simp [answered, hop, lockAnswered]

theorem exists_second (p : Proxy) {s : State} {c : Call} (hop : c.op = .lock)
    (hfirst : c.second = false) (hready : Ready script s c)
    (hzero : script.answer 0 = .error .sessionExpired) :
    ∃ (s' : State) (session : ℤ), Ready script s' { c with second := true } ∧
      s'.manager.session = none ∧ (script.step p)^[7] ⟨s, [.session c], []⟩ =
        ⟨s', [.session { c with second := true }], [.sent c session]⟩ := by
  have hacquires : c.op.acquires = true := by rw [hop]; rfl
  obtain ⟨s', session, hready', hnone, hdone⟩ :=
    exists_done p [] hacquires (by simp [Script.Spare, hfirst]) hready hzero
      (answered_lock_expired hop)
  refine ⟨s', session, ⟨hready'.running, hready'.sessions, hready'.free⟩, hnone, ?_⟩
  rw [iterate_succ_apply', hdone, step_of_fire rfl rfl]
  simp [finish, hfirst]

/-- A call that has come to a place where it stays has not ended. -/
theorem not_ended_of_fixed {s : State} {c : Call} {a : Alone} {n : ℕ}
    (hreach : script.run p s c n = a) (hfixed : script.step p a = a) (hstack : a.stack ≠ []) (m : ℕ) :
    (script.run p s c m).stack ≠ [] := by
  intro hend
  have hstay := iterate_of_fixed hfixed hreach (le_max_left n m)
  have hended' : script.step p (script.run p s c m) = script.run p s c m := by
    rw [Script.step, hend]
  have hended := iterate_of_fixed hended' rfl (le_max_right n m)
  rw [hstay] at hended
  rw [← hended] at hend
  exact hstack hend

/-- A second attempt that is made in the only thread of the executor waits forever. -/
theorem not_ended_of_blocked {s : State} {c : Call} (hop : c.op = .lock)
    (hfirst : c.second = false) (hready : Ready script s c)
    (hzero : script.answer 0 = .error .sessionExpired) (halone : script.otherThreads = 0) (n : ℕ) :
    (script.run p s c n).stack ≠ [] := by
  obtain ⟨s', session, -, hnone, hsecond⟩ := exists_second p hop hfirst hready hzero
  refine not_ended_of_fixed hsecond (step_of_stuck (.inl ?_)) (by simp) n
  simp [Script.blocked, Script.waits, hop, hnone, halone]

/-- After two answers that the session has expired the call spins. -/
theorem not_ended_of_expired_twice {s : State} {c : Call} (hop : c.op = .lock)
    (hfirst : c.second = false) (hready : Ready script s c)
    (hzero : script.answer 0 = .error .sessionExpired)
    (hone : script.answer 1 = .error .sessionExpired) (n : ℕ) :
    (script.run p s c n).stack ≠ [] := by
  by_cases halone : script.otherThreads = 0
  · exact not_ended_of_blocked hop hfirst hready hzero halone n
  obtain ⟨s₁, session₁, hready₁, -, hsecond⟩ := exists_second p hop hfirst hready hzero
  have hacquires : ({ c with second := true } : Call).op.acquires = true := by
    show c.op.acquires = true
    rw [hop]
    rfl
  obtain ⟨s₂, session₂, -, -, hdone⟩ := exists_done p [.sent c session₁] hacquires
    (fun _ _ => Nat.pos_of_ne_zero halone) hready₁ hone (answered_lock_expired hop)
  have hspin : (script.step p)^[13] ⟨s, [.session c], []⟩ =
      ⟨s₂, [.done { c with second := true } (.attempt invalidFence true)],
        [.sent c session₁] ++ [.sent { c with second := true } session₂]⟩ := by
    rw [iterate_add_apply _ 6 7, hsecond, hdone]
  exact not_ended_of_fixed hspin rfl (by simp) n

/-- When `k` requests are answered with an expired session and the next one with a valid
fence, `lock` completes with that fence after `k + 1` requests, as long as `k` is at most
one and a second attempt has another thread of the executor. -/
theorem lock_completes_iff (p : Proxy) (script : Script) (s : State) (c : Call) (k : ℕ) (fence : ℤ)
    (hop : c.op = .lock) (hfirst : c.second = false) (hready : Ready script s c)
    (hexpired : ∀ i < k, script.answer i = .error .sessionExpired)
    (hfence : script.answer k = .fence fence) (hvalid : fence ≠ invalidFence) :
    (∃ n, Completes (script.run p s c n) c fence (k + 1)) ↔
      k = 0 ∨ k = 1 ∧ 0 < script.otherThreads := by
  have hacquires : c.op.acquires = true := by rw [hop]; rfl
  have hspare : script.Spare c := by simp [Script.Spare, hfirst]
  constructor
  · rintro ⟨n, hcompletes⟩
    by_contra hk
    rcases Nat.eq_zero_or_pos script.otherThreads with halone | hother
    · exact not_ended_of_blocked hop hfirst hready (hexpired 0 (by omega)) halone n
        hcompletes.ended
    · exact not_ended_of_expired_twice hop hfirst hready (hexpired 0 (by omega))
        (hexpired 1 (by omega)) n hcompletes.ended
  · rintro (rfl | ⟨rfl, hother⟩)
    · obtain ⟨s', session, hlocked⟩ := exists_locked p [] hacquires hspare hready hfence hvalid
      refine ⟨5, ?_⟩
      rw [Script.run, hlocked]
      exact ⟨rfl, ⟨c, session, rfl⟩, rfl, by simp⟩
    · obtain ⟨s₁, session₁, hready₁, -, hsecond⟩ :=
        exists_second p hop hfirst hready (hexpired 0 (by omega))
      obtain ⟨s₂, session₂, hlocked⟩ :=
        exists_locked p [.sent c session₁] (c := { c with second := true }) hacquires
          (fun _ _ => hother) hready₁ hfence hvalid
      refine ⟨12, ?_⟩
      rw [Script.run, iterate_add_apply _ 5 7, hsecond, hlocked]
      refine ⟨rfl, ⟨_, session₂, rfl⟩, rfl, fun c' session hsent => ?_⟩
      simp only [mem_append, mem_cons, not_mem_nil, or_false,
        Event.sent.injEq] at hsent
      rcases hsent with ⟨rfl, -⟩ | ⟨rfl, -⟩ | h
      · rfl
      · rfl
      · cases h

def Script.ofAnswers (answers : List Answer) : Script where
  start _ := 0
  lookup _ := ⟨0, .ok ⟨0, 60000, 0⟩⟩
  now _ := 0
  answer n := answers.getD n (.error (.other 0))
  otherThreads := 1

/-- The session has expired once. -/
theorem lock_completes_second :
    ∃ n, Completes
      ((Script.ofAnswers [.error .sessionExpired, .fence 7]).run
        ⟨"lock", "lock"⟩ {} ⟨.lock, 1, 5, false⟩ n) ⟨.lock, 1, 5, false⟩ 7 2 := by
  refine (lock_completes_iff _ _ _ _ 1 7 rfl rfl ⟨rfl, fun _ => ⟨_, rfl⟩, rfl⟩ ?_ rfl
    (by decide)).mpr (.inr ⟨rfl, Nat.one_pos⟩)
  intro i hi
  obtain rfl : i = 0 := by omega
  rfl

/-- The session has expired twice, and the call does not come to an end. -/
theorem lock_spins :
    ¬ ∃ n, Completes
      ((Script.ofAnswers [.error .sessionExpired, .error .sessionExpired, .fence 7]).run
        ⟨"lock", "lock"⟩ {} ⟨.lock, 1, 5, false⟩ n) ⟨.lock, 1, 5, false⟩ 7 3 := by
  rintro ⟨n, hcompletes⟩
  exact not_ended_of_expired_twice rfl rfl ⟨rfl, fun _ => ⟨_, rfl⟩, rfl⟩ rfl rfl n
    hcompletes.ended

section TryLock

variable {s : State} {c : Call} {timeout : ℤ} {after : After} {ev : Event} {events : List Event}

def Event.fence? : Event → Option ℤ
  | locked _ _ fence => some fence
  | returned _ (.fence value) => some value
  | _ => none

def EndsWith (a : Alone) (fence : ℤ) : Prop :=
  a.stack = [] ∧ a.events.getLast?.bind Event.fence? = some fence

def Script.TimeLeft (script : Script) (timeout : ℤ) (request : ℕ) : Prop :=
  0 < 1000000 * timeout - (script.now request - script.start request)

instance (script : Script) (timeout : ℤ) (request : ℕ) :
    Decidable (script.TimeLeft timeout request) :=
  inferInstanceAs (Decidable (_ < _))

/-- A call that tries again while time is left: it ends with the answer to the first request
that does not meet an expired session, and an expired session ends it only when the time is
over. -/
structure KeepsTrying (script : Script) (p : Proxy) (s : State) (c : Call) (timeout : ℤ) :
    Prop where
  answer : ∀ k fence, (∀ i < k, script.answer i = .error .sessionExpired ∧
      script.TimeLeft timeout i) → script.answer k = .fence fence →
    ∃ n, EndsWith (script.run p s c n) fence
  expired : ∀ n, EndsWith (script.run p s c n) invalidFence →
    ∀ request, sentCount (script.run p s c n).events = request + 1 →
      script.answer request = .error .sessionExpired → ¬ script.TimeLeft timeout request

def After.event (c : Call) : After → Option Event
  | attempt fence again => if again then none else some (.returned c (.fence fence))
  | returned value => some (.returned c value)
  | threw e => some (.threw c e)

section

variable (h : after.event c = some ev)

include h

theorem finish_of_event : finish s c after = { shared := s, event := some ev } := by
  cases after with
  | attempt fence again =>
    cases again with
    | false => cases h; rfl
    | true => cases h
  | returned value | threw e => cases h; rfl

theorem step_done : script.step p ⟨s, [.done c after], events⟩ = ⟨s, [], events ++ [ev]⟩ := by
  have hfire : p.fire s (script.choice (sentCount events) (.done c after)) (.done c after) =
      some { shared := s, event := some ev } := congrArg some (finish_of_event h)
  rw [step_of_fire rfl hfire]
  rfl

theorem iterate_release {session : ℤ} :
    (script.step p)^[2] ⟨s, [.release session, .done c after], events⟩ =
      ⟨{ s with manager := s.manager.releaseSession session 1 }, [], events ++ [ev]⟩ := by
  have hrelease : script.step p ⟨s, [.release session, .done c after], events⟩ =
      ⟨{ s with manager := s.manager.releaseSession session 1 }, [.done c after], events⟩ := by
    rw [step_of_fire rfl rfl]
    simp
  rw [iterate_succ_apply, hrelease, iterate_one, step_done h]

end

theorem exists_endsWith_of_fence (hop : c.op = .tryLock timeout) (hready : Ready script s c)
    (hanswer : script.answer 0 = .fence fence) : ∃ n, EndsWith (script.run p s c n) fence := by
  have hacquires : c.op.acquires = true := by rw [hop]; rfl
  have hspare : script.Spare c := by simp [Script.Spare, hop]
  by_cases hvalid : fence = invalidFence
  · obtain ⟨m, session, -, hsent⟩ := exists_sent p [] hacquires hspare hready
    have hanswered : p.answered c session (script.now (sentCount []) - script.start (sentCount []))
        (script.answer (sentCount [])) =
        some [.release session, .done c (.attempt fence false)] := by
      show p.answered c session _ (script.answer 0) = _
      simp [answered, hop, hanswer, tryLockAnswered, hvalid]
    refine ⟨6, ?_⟩
    rw [Script.run, iterate_add_apply _ 3 3, hsent, iterate_succ_apply,
      step_answer hspare hanswered, iterate_release rfl]
    exact ⟨rfl, rfl⟩
  · obtain ⟨s', session, hlocked⟩ := exists_locked p [] hacquires hspare hready hanswer hvalid
    refine ⟨5, ?_⟩
    rw [Script.run, hlocked]
    exact ⟨rfl, rfl⟩

theorem exists_endsWith_of_expired (hop : c.op = .tryLock timeout) (hready : Ready script s c)
    (hanswer : script.answer 0 = .error .sessionExpired) :
    ∃ n, EndsWith (script.run p s c n) invalidFence ∧
      sentCount (script.run p s c n).events = 1 := by
  have hacquires : c.op.acquires = true := by rw [hop]; rfl
  have hafter : ∀ session elapsed, p.answered c session elapsed (.error .sessionExpired) =
      some [.invalidate c session, .verifyNone c (.attempt invalidFence false)] := by
    intro session elapsed
    simp only [answered, hop, tryLockAnswered, ite_self]
  obtain ⟨s', session, -, -, hdone⟩ :=
    exists_done p [] hacquires (by simp [Script.Spare, hop]) hready hanswer hafter
  refine ⟨7, ?_⟩
  rw [Script.run, iterate_succ_apply', hdone, step_done rfl]
  exact ⟨⟨rfl, rfl⟩, rfl⟩

end TryLock

/-! ## The requests of a call -/

/-- The requests that a call may still send from a place on: `lock` has a second attempt. -/
def Frame.budget : Frame → ℕ
  | session c | verify c _ _ | send c _ _ => if c.op = .lock ∧ c.second = false then 2 else 1
  | answer c _ _ => if c.op = .lock ∧ c.second = false then 1 else 0
  | verifyNone c (.attempt _ true) | done c (.attempt _ true) => if c.second then 0 else 1
  | _ => 0

def budget (frames : List Frame) : ℕ := (frames.map Frame.budget).sum

@[simp] theorem budget_nil : budget [] = 0 := rfl

@[simp] theorem budget_cons (f : Frame) (frames : List Frame) :
    budget (f :: frames) = f.budget + budget frames := by
  simp [budget]

@[simp] theorem budget_append (l l' : List Frame) : budget (l ++ l') = budget l + budget l' := by
  simp [budget]

section Budget

variable {c : Call} {session : ℤ} {frames : List Frame}

theorem budget_done {after : After} (hlast : after.asksAgain = false) :
    (done c after).budget = 0 := by
  cases after with
  | attempt fence again => cases hlast; rfl
  | _ => rfl

theorem budget_verifyNone (c : Call) (after : After) :
    (verifyNone c after).budget = (done c after).budget := by
  cases after with
  | attempt fence again => cases again <;> rfl
  | _ => rfl

theorem budget_of_reaction (h : Reaction c session frames) (start : ℤ) :
    budget frames ≤ (Frame.answer c session start).budget := by
  cases h with
  | failed hop after hlast =>
    rw [budget_cons, budget_cons, budget_done hlast]
    exact Nat.zero_le _
  | expired hop after hagain =>
    cases hask : after.asksAgain with
    | false =>
      rw [budget_cons, budget_cons, budget_verifyNone, budget_done hask]
      exact Nat.zero_le _
    | true =>
      have hlock := hagain hask
      cases after with
      | attempt fence again =>
        cases hask
        cases hsecond : c.second <;> simp [Frame.budget, hlock, hsecond]
      | _ => cases hask
  | others hop after hlast =>
    rw [budget_cons, budget_verifyNone, budget_done hlast]
    exact Nat.zero_le _
  | _ => exact Nat.zero_le _

theorem budget_fire {s : State} {choice : Choice} {f : Frame} (h : p.fire s choice f = some e) :
    sentCount e.event.toList + budget e.next ≤ f.budget := by
  cases fired_of_fire h with
  | sent c session start =>
    by_cases hfirst : c.op = .lock ∧ c.second = false
    · simp [Frame.budget, hfirst]
    · simp [Frame.budget, hfirst]
  | answered c session start hframes =>
    exact (Nat.zero_add _).le.trans (budget_of_reaction hframes start)
  | forgot c session found => cases c.op.acquires <;> exact Nat.zero_le _
  | verified c after => exact (Nat.zero_add _).le.trans (budget_verifyNone c after).ge
  | spins c after | acquired c start hop hacquired | found c start hop
  | checked c session start hpermits => exact (Nat.zero_add _).le
  | again c fence hfirst => simp [Frame.budget, hfirst]
  | _ => exact Nat.zero_le _

end Budget

theorem sentCount_add_budget_step (script : Script) (p : Proxy) (a : Alone) :
    sentCount (script.step p a).events + budget (script.step p a).stack ≤
      sentCount a.events + budget a.stack := by
  obtain ⟨s, stack, events⟩ := a
  cases stack with
  | nil => exact le_rfl
  | cons f stack =>
    cases hblocked : script.blocked s (sentCount events) f with
    | true => rw [step_of_stuck (.inl hblocked)]
    | false =>
    cases hfire : p.fire s (script.choice (sentCount events) f) f with
    | none => rw [step_of_stuck (.inr hfire)]
    | some e =>
      have hstep := budget_fire hfire
      rw [step_of_fire hblocked hfire]
      simp only [sentCount_append, budget_append, budget_cons]
      omega

/-- `lock` sends at most two requests, every other call at most one. -/
theorem sentCount_run_le (script : Script) (p : Proxy) (s : State) (c : Call) (n : ℕ) :
    sentCount (script.run p s c n).events ≤ (session c).budget := by
  have hall : sentCount (script.run p s c n).events + budget (script.run p s c n).stack ≤
      (session c).budget := by
    induction n with
    | zero => simp [Script.run]
    | succ n ih =>
      rw [Script.run, iterate_succ_apply']
      exact (sentCount_add_budget_step script p _).trans ih
  omega

/-- `try_lock` keeps trying while time is left, as long as there is nothing to try again: its
first request does not meet an expired session before the timeout has elapsed. -/
theorem tryLock_keepsTrying_iff (p : Proxy) (script : Script) (s : State) (c : Call) (timeout : ℤ)
    (hop : c.op = .tryLock timeout) (hready : Ready script s c) :
    KeepsTrying script p s c timeout ↔
      (script.answer 0 = .error .sessionExpired → ¬ script.TimeLeft timeout 0) := by
  constructor
  · intro hkeeps hexpired
    obtain ⟨n, hends, hone⟩ := exists_endsWith_of_expired (p := p) hop hready hexpired
    exact hkeeps.expired n hends 0 hone hexpired
  · intro hover
    refine ⟨fun k fence hbefore hanswer => ?_, fun n _ request hcount hexpired => ?_⟩
    · cases k with
      | zero => exact exists_endsWith_of_fence hop hready hanswer
      | succ k =>
        obtain ⟨hexpired, hleft⟩ := hbefore 0 k.succ_pos
        exact absurd hleft (hover hexpired)
    · have hle := sentCount_run_le script p s c n
      have hbudget : (Frame.session c).budget = 1 := by simp [Frame.budget, hop]
      obtain rfl : request = 0 := by omega
      exact hover hexpired

/-- The session has expired, and so has the timeout; or there is time, and the first request
gets a fence. -/
theorem tryLock_keepsTrying_timeout :
    KeepsTrying (Script.ofAnswers [.error .sessionExpired, .fence 7]) ⟨"lock", "lock"⟩ {}
        ⟨.tryLock 0, 1, 5, false⟩ 0 ∧
      KeepsTrying (Script.ofAnswers [.fence 7]) ⟨"lock", "lock"⟩ {}
        ⟨.tryLock 1000, 1, 5, false⟩ 1000 := by
  constructor
  · refine (tryLock_keepsTrying_iff _ _ _ _ 0 rfl ⟨rfl, fun _ => ⟨_, rfl⟩, rfl⟩).mpr fun _ => ?_
    decide
  · refine (tryLock_keepsTrying_iff _ _ _ _ 1000 rfl ⟨rfl, fun _ => ⟨_, rfl⟩, rfl⟩).mpr ?_
    intro hexpired
    cases hexpired

/-- The session has expired, a second is left, and the call gives up. -/
theorem tryLock_gives_up :
    ¬ KeepsTrying (Script.ofAnswers [.error .sessionExpired, .fence 7]) ⟨"lock", "lock"⟩ {}
      ⟨.tryLock 1000, 1, 5, false⟩ 1000 := by
  intro hkeeps
  have hready : Ready (Script.ofAnswers [.error .sessionExpired, .fence 7]) {}
      ⟨.tryLock 1000, 1, 5, false⟩ := ⟨rfl, fun _ => ⟨_, rfl⟩, rfl⟩
  obtain ⟨n, hends, hone⟩ :=
    exists_endsWith_of_expired (p := ⟨"lock", "lock"⟩) rfl hready rfl
  exact hkeeps.expired n hends 0 hone rfl (by decide)

end HazelcastClient.Cp.FencedLock
