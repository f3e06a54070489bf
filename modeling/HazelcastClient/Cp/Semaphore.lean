import HazelcastClient.Cp.SessionManager
import Mathlib.Algebra.BigOperators.Group.List.Basic
import Mathlib.Data.List.Induction

/-!
# The use count of a session under semaphore operations

`session_semaphore` acquires the session of its group before each request, as often as the
number of permits it asks for, or `DRAIN_SESSION_ACQ_COUNT` times when it cannot know that
number. The session is kept alive while its count is positive, so what has been acquired in
advance has to be given back as far as no permits were obtained.

The operations run one at a time. Each request meets what the session manager and the
server answer; an operation retries as long as it is told that its session has expired.
-/

namespace HazelcastClient.Cp

open List SessionManager

/-- What one request of an operation meets: the lookup of the session, the answer, and the
nanoseconds that have passed when it arrives. -/
structure Attempt (β : Type) where
  lookup : Lookup
  answer : Except ServerError β
  elapsed : ℤ := 0

inductive PermitEvent where
  | acquired (session permits : ℤ)
  | released (session permits : ℤ)

def PermitEvent.change (sessionId : ℤ) : PermitEvent → ℤ
  | acquired session permits => if session = sessionId then permits else 0
  | released session permits => if session = sessionId then -permits else 0

/-- The permits acquired or drained and not yet released through a session. -/
def held (events : List PermitEvent) (sessionId : ℤ) : ℤ :=
  (events.map (PermitEvent.change sessionId)).sum

@[simp] theorem held_nil (sessionId : ℤ) : held [] sessionId = 0 := rfl

theorem held_acquired (session permits id : ℤ) :
    held [.acquired session permits] id = if id = session then permits else 0 := by
  simp [held, PermitEvent.change, eq_comm]

theorem held_released (session permits id : ℤ) :
    held [.released session permits] id = if id = session then -permits else 0 := by
  simp [held, PermitEvent.change, eq_comm]

theorem held_append (events more : List PermitEvent) (sessionId : ℤ) :
    held (events ++ more) sessionId = held events sessionId + held more sessionId := by
  simp [held]

/-- The state of the manager after an operation, the permits it has moved, and how it has
ended; `none` while it waits for an answer. -/
structure Result (β : Type) where
  manager : SessionManager
  events : List PermitEvent
  outcome : Option (Except CpException β)

def drainSessionAcqCount : ℤ := 1024

def checkNotNegative (value : ℤ) (message : String) : Except CpException Unit :=
  if value < 0 then .error (.illegalArgument "Preconditions::checkNotNegative" message)
  else .ok ()

def checkPositive (value : ℤ) (message : String) : Except CpException Unit :=
  if value ≤ 0 then .error (.illegalArgument "Preconditions::checkPositive" message)
  else .ok ()

section Checks

variable {value : ℤ} {message : String}

theorem checkNotNegative_of_le (h : 0 ≤ value) : checkNotNegative value message = .ok () :=
  if_neg (not_lt.mpr h)

theorem checkNotNegative_of_lt (h : value < 0) : checkNotNegative value message =
    .error (.illegalArgument "Preconditions::checkNotNegative" message) :=
  if_pos h

end Checks

/-- `throw_illegal_state_exception`; a cause is nested. -/
def noValidSession : CpException :=
  .illegalState "session_semaphore::illegal_state" "No valid session!"

namespace Semaphore

/-- One request of `try_acquire_for_millis`: whether permits were acquired and whether to
try again. -/
def doTryAcquireOnce (objectName : String) (permits timeout : ℤ) (m : SessionManager)
    (a : Attempt Bool) : SessionManager × List PermitEvent × Except CpException (Bool × Bool) :=
  match m.acquireSession a.lookup permits with
  | .error e => (m, [], .error e)
  | .ok (sessionId, m) =>
    match a.answer with
    | .ok true => (m, [.acquired sessionId permits], .ok (true, false))
    | .ok false => (m.releaseSession sessionId 1, [], .ok (false, false))
    | .error .sessionExpired =>
      let timedOut := 0 ≤ timeout ∧ 1000000 * timeout - a.elapsed ≤ 0
      (m.invalidateSession sessionId, [], .ok (false, !timedOut))
    | .error .waitKeyCancelled =>
      (m.releaseSession sessionId permits, [],
        if 0 ≤ timeout then .ok (false, false)
        else .error (.illegalState "session_semaphore::try_acquire_for_millis"
          ("Semaphore[" ++ objectName ++ "] not acquired because the acquire call on the " ++
            "CP group is cancelled, possibly because of another indeterminate call from " ++
            "the same thread.")))
    | .error e => (m, [], .error (.ofServer e))

def tryAcquireLoop (objectName : String) (permits timeout : ℤ) :
    SessionManager → List (Attempt Bool) → Result Bool
  | m, [] => ⟨m, [], none⟩
  | m, a :: attempts =>
    match doTryAcquireOnce objectName permits timeout m a with
    | (m, events, .error e) => ⟨m, events, some (.error e)⟩
    | (m, events, .ok (acquired, false)) => ⟨m, events, some (.ok acquired)⟩
    | (m, events, .ok (_, true)) =>
      let rest := tryAcquireLoop objectName permits timeout m attempts
      ⟨rest.manager, events ++ rest.events, rest.outcome⟩

def tryAcquireForMillis (objectName : String) (permits : Int32) (timeout : ℤ)
    (m : SessionManager) (attempts : List (Attempt Bool)) : Result Bool :=
  match checkNotNegative permits.toInt "permits must not be negative number." with
  | .error e => ⟨m, [], some (.error e)⟩
  | .ok () => tryAcquireLoop objectName permits.toInt timeout m attempts

def release (permits : Int32) (m : SessionManager) (answer : Except ServerError Unit) :
    Result Unit :=
  match checkPositive permits.toInt "Permits must be positive!" with
  | .error e => ⟨m, [], some (.error e)⟩
  | .ok () =>
    let sessionId := m.getSession
    if sessionId = noSessionId then ⟨m, [], some (.error noValidSession)⟩
    else
      match answer with
      | .ok () =>
        ⟨m.releaseSession sessionId permits.toInt, [.released sessionId permits.toInt],
          some (.ok ())⟩
      | .error .sessionExpired =>
        ⟨(m.invalidateSession sessionId).releaseSession sessionId permits.toInt, [],
          some (.error noValidSession)⟩
      | .error e => ⟨m, [], some (.error (.ofServer e))⟩

/-- One request of `drain_permits`, with the count it returns. -/
def doDrainOnce (m : SessionManager) (a : Attempt Int32) :
    SessionManager × List PermitEvent × Except CpException ℤ :=
  match m.acquireSession a.lookup drainSessionAcqCount with
  | .error e => (m, [], .error e)
  | .ok (sessionId, m) =>
    match a.answer with
    | .ok count =>
      (m.releaseSession sessionId (drainSessionAcqCount - count.toInt),
        [.acquired sessionId count.toInt], .ok count.toInt)
    | .error .sessionExpired => (m.invalidateSession sessionId, [], .ok (-1))
    | .error e => (m, [], .error (.ofServer e))

def drainPermits : SessionManager → List (Attempt Int32) → Result ℤ
  | m, [] => ⟨m, [], none⟩
  | m, a :: attempts =>
    match doDrainOnce m a with
    | (m, events, .error e) => ⟨m, events, some (.error e)⟩
    | (m, events, .ok count) =>
      if count = -1 then
        let rest := drainPermits m attempts
        ⟨rest.manager, events ++ rest.events, rest.outcome⟩
      else ⟨m, events, some (.ok count)⟩

def doChangePermits (m : SessionManager) (a : Attempt Unit) : Result Unit :=
  match m.acquireSession a.lookup drainSessionAcqCount with
  | .error e => ⟨m, [], some (.error e)⟩
  | .ok (sessionId, m) =>
    match a.answer with
    | .ok () => ⟨m.releaseSession sessionId 1, [], some (.ok ())⟩
    | .error .sessionExpired =>
      ⟨m.invalidateSession sessionId, [], some (.error noValidSession)⟩
    | .error e => ⟨m, [], some (.error (.ofServer e))⟩

/-- `increase_permits` and `reduce_permits`, which differ in the sign of the delta they send
and in the text of the check. -/
def changePermits (message : String) (amount : Int32) (m : SessionManager) (a : Attempt Unit) :
    Result Unit :=
  match checkNotNegative amount.toInt message with
  | .error e => ⟨m, [], some (.error e)⟩
  | .ok () => if amount.toInt = 0 then ⟨m, [], some (.ok ())⟩ else doChangePermits m a

def increasePermits : Int32 → SessionManager → Attempt Unit → Result Unit :=
  changePermits "Increase must be non-negative!"

def reducePermits : Int32 → SessionManager → Attempt Unit → Result Unit :=
  changePermits "Reduction must be non-negative!"

inductive Call where
  | acquire (permits : Int32) (attempts : List (Attempt Bool))
  | tryAcquireFor (relTime : ℤ) (permits : Int32) (attempts : List (Attempt Bool))
  | release (permits : Int32) (answer : Except ServerError Unit)
  | drainPermits (attempts : List (Attempt Int32))
  | increasePermits (increase : Int32) (attempt : Attempt Unit)
  | reducePermits (reduction : Int32) (attempt : Attempt Unit)

structure State where
  manager : SessionManager
  events : List PermitEvent

def State.after {β : Type} (st : State) (r : Result β) : State := ⟨r.manager, st.events ++ r.events⟩

@[simp] theorem State.after_unchanged {β : Type} (st : State)
    (outcome : Option (Except CpException β)) : st.after ⟨st.manager, [], outcome⟩ = st := by
  simp [State.after]

/-- One operation. `try_acquire` is `try_acquire_for` with the time zero. -/
def State.call (objectName : String) (st : State) : Call → State
  | .acquire permits attempts =>
    st.after (tryAcquireForMillis objectName permits (-1) st.manager attempts)
  | .tryAcquireFor relTime permits attempts =>
    st.after (tryAcquireForMillis objectName permits (max relTime 0) st.manager attempts)
  | .release permits answer => st.after (release permits st.manager answer)
  | .drainPermits attempts => st.after (drainPermits st.manager attempts)
  | .increasePermits increase attempt =>
    st.after (increasePermits increase st.manager attempt)
  | .reducePermits reduction attempt => st.after (reducePermits reduction st.manager attempt)

def State.run (objectName : String) (st : State) (calls : List Call) : State :=
  calls.foldl (State.call objectName) st

/-- The use count of the session is the number of permits held through it. -/
def State.Balanced (st : State) : Prop :=
  ∀ s ∈ st.manager.session, s.acquireCount = held st.events s.id

/-- The session and the permits belong to sessions that the server has created, and the
count is an `int32_t`. -/
structure State.WellFormed (st : State) : Prop where
  session : ∀ s ∈ st.manager.session, 0 ≤ s.id ∧ s.id < st.manager.created
  count : ∀ s ∈ st.manager.session, int32 s.acquireCount = s.acquireCount
  events : ∀ sessionId : ℤ, st.manager.created ≤ sessionId → held st.events sessionId = 0

section Count

variable {m m' m₁ : SessionManager} {sessionId d q : ℤ}

/-- From `m` to `m'` the count of the session has changed by `d`; a new session starts with
the count zero. -/
def Shifted (m m' : SessionManager) (sessionId d : ℤ) : Prop :=
  ∃ s', m'.session = some s' ∧ s'.id = sessionId ∧
    ((∃ s, m.session = some s ∧ s.id = sessionId ∧ m'.created = m.created ∧
      s'.acquireCount = int32 (s.acquireCount + d)) ∨
    (m.created ≤ sessionId ∧ m'.created = sessionId + 1 ∧ s'.acquireCount = int32 d))

theorem shifted_of_acquire {lookup : Lookup}
    (h : m.acquireSession lookup d = .ok (sessionId, m')) : Shifted m m' sessionId d := by
  obtain ⟨-, ⟨s, hs, rfl, rfl⟩ | ⟨hle, hcreated, s, hs, hid, hcount⟩⟩ :=
    acquireSession_eq_ok h
  · exact ⟨s.acquire d, rfl, rfl, .inl ⟨s, hs, rfl, rfl, rfl⟩⟩
  · refine ⟨s.acquire d, hs, hid, .inr ⟨hle, hcreated, ?_⟩⟩
    simp [SessionState.acquire, hcount]

theorem Shifted.release (h : Shifted m m₁ sessionId d) :
    Shifted m (m₁.releaseSession sessionId q) sessionId (d - q) := by
  obtain ⟨s', hs', hid, hcount⟩ := h
  have hsession : m₁.releaseSession sessionId q = { m₁ with session := some (s'.release q) } := by
    simp [releaseSession, hs', hid]
  refine ⟨s'.release q, by rw [hsession], hid, ?_⟩
  rcases hcount with ⟨s, hs, hsid, hcreated, hcount⟩ | ⟨hsid, hcreated, hcount⟩
  · refine .inl ⟨s, hs, hsid, by rw [hsession]; exact hcreated, ?_⟩
    simp only [SessionState.release, hcount, int32_sub_int32]
    rw [add_sub_assoc]
  · refine .inr ⟨hsid, by rw [hsession]; exact hcreated, ?_⟩
    simp only [SessionState.release, hcount, int32_sub_int32]

/-- The count moves by `d` and the permits held by `e`. They end up equal when the two are
the same and the sum is an `int32_t`. -/
theorem int32_add_eq_iff {h e : ℤ} (hlt : d - e < 2 ^ 32) (hgt : -2 ^ 32 < d - e) :
    int32 (h + d) = h + e ↔ d = e ∧ -2 ^ 31 ≤ h + e ∧ h + e < 2 ^ 31 := by
  constructor
  · intro heq
    have hmod : (h + e) % 4294967296 = (h + d) % 4294967296 := by
      rw [← heq]
      exact Int.bmod_emod
    have hsame : d = e := by omega
    subst hsame
    exact ⟨rfl, int32_eq_self_iff.mp heq⟩
  · rintro ⟨rfl, hrange⟩
    exact int32_eq_self_iff.mpr hrange

/-- An operation has changed the count of a session by `d` and the permits held through it
by `e`. -/
structure Moved (st st' : State) (sessionId d e : ℤ) : Prop where
  shifted : Shifted st.manager st'.manager sessionId d
  events : ∃ es, st'.events = st.events ++ es ∧
    ∀ id, held es id = if id = sessionId then e else 0

namespace Moved

variable {st st' : State} {e : ℤ}

section

variable (h : Moved st st' sessionId d e)

include h

theorem held_eq (id : ℤ) :
    held st'.events id = held st.events id + if id = sessionId then e else 0 := by
  obtain ⟨es, hes, heach⟩ := h.events
  rw [hes, held_append, heach]

theorem wellFormed (hwf : st.WellFormed) : st'.WellFormed := by
  obtain ⟨s', hs', hid, hcases⟩ := h.shifted
  have hsession : ∀ t ∈ st'.manager.session, t = s' := by
    intro t ht
    rw [hs'] at ht
    exact (Option.some.inj ht).symm
  rcases hcases with ⟨s, hs, hsid, hcreated, hcount⟩ | ⟨hsid, hcreated, hcount⟩
  · have hold := hwf.session s hs
    rw [hsid] at hold
    refine ⟨fun t ht => ?_, fun t ht => ?_, fun id hle => ?_⟩
    · rw [hsession t ht, hid, hcreated]
      exact hold
    · rw [hsession t ht, hcount]
      exact Int.bmod_bmod
    · rw [hcreated] at hle
      rw [h.held_eq, hwf.events id hle, if_neg (by omega), add_zero]
  · refine ⟨fun t ht => ?_, fun t ht => ?_, fun id hle => ?_⟩
    · rw [hsession t ht, hid, hcreated]
      omega
    · rw [hsession t ht, hcount]
      exact Int.bmod_bmod
    · rw [hcreated] at hle
      rw [h.held_eq, hwf.events id (by omega), if_neg (by omega), add_zero]

/-- After an operation that moves the two by different amounts the balance is lost. -/
theorem balanced_iff (hwf : st.WellFormed) (hbal : st.Balanced) (hlt : d - e < 2 ^ 32)
    (hgt : -2 ^ 32 < d - e) :
    st'.Balanced ↔
      d = e ∧ -2 ^ 31 ≤ held st.events sessionId + e ∧ held st.events sessionId + e < 2 ^ 31 := by
  obtain ⟨s', hs', hid, hcases⟩ := h.shifted
  have hcount : s'.acquireCount = int32 (held st.events sessionId + d) := by
    rcases hcases with ⟨s, hs, hsid, -, hcount⟩ | ⟨hsid, -, hcount⟩
    · rw [hcount, hbal s hs, hsid]
    · rw [hcount, hwf.events sessionId hsid.ge, zero_add]
  rw [← int32_add_eq_iff hlt hgt, ← hcount]
  have hheld := h.held_eq sessionId
  rw [if_pos rfl] at hheld
  constructor
  · intro hbal'
    rw [hbal' s' hs', hid, hheld]
  · intro heq t ht
    rw [hs'] at ht
    cases ht
    rw [hid, hheld]
    exact heq

end

end Moved

end Count

/-- The number fits into an `int32_t`. -/
def Fits (x : ℤ) : Prop := -2 ^ 31 ≤ x ∧ x < 2 ^ 31

/-- What is in question: a call whose first request is answered, not with
`session_expired`. A drained number is not negative. -/
def Call.InScope : Call → Prop
  | .acquire _ attempts | .tryAcquireFor _ _ attempts =>
    ∃ a rest, attempts = a :: rest ∧ a.answer ≠ .error .sessionExpired
  | .release _ answer => answer ≠ .error .sessionExpired
  | .drainPermits attempts => ∃ a rest, attempts = a :: rest ∧
      a.answer ≠ .error .sessionExpired ∧ ∀ count, a.answer = .ok count → 0 ≤ count.toInt
  | .increasePermits _ a | .reducePermits _ a => a.answer ≠ .error .sessionExpired

/-- The answers after which an acquisition has undone what it did in advance. -/
def SettlesAcquire (permits : Int32) (heldBefore : ℤ) : Except ServerError Bool → Prop
  | .ok true => Fits (heldBefore + permits.toInt)
  | .ok false => permits.toInt = 1
  | .error .waitKeyCancelled => True
  | .error _ => permits.toInt = 0

/-- The calls that leave the count balanced, in the state before the call. A call that fails
before its request changes nothing. -/
def Call.Settles (st : State) : Call → Prop
  | .acquire permits attempts | .tryAcquireFor _ permits attempts =>
    0 ≤ permits.toInt → ∀ a ∈ attempts.head?, ∀ sessionId m,
      st.manager.acquireSession a.lookup permits.toInt = .ok (sessionId, m) →
      SettlesAcquire permits (held st.events sessionId) a.answer
  | .release permits answer =>
    0 < permits.toInt → answer = .ok () → ∀ s ∈ st.manager.session,
      Fits (held st.events s.id - permits.toInt)
  | .drainPermits attempts =>
    ∀ a ∈ attempts.head?, ∀ sessionId m,
      st.manager.acquireSession a.lookup drainSessionAcqCount = .ok (sessionId, m) →
      ∃ count, a.answer = .ok count ∧ Fits (held st.events sessionId + count.toInt)
  | .increasePermits amount a | .reducePermits amount a =>
    0 < amount.toInt → ∀ sessionId m,
      st.manager.acquireSession a.lookup drainSessionAcqCount ≠ .ok (sessionId, m)

section Step

variable {objectName : String} {st st' : State} {sessionId : ℤ} {m : SessionManager} {cond : Prop}
  {lookup : Lookup} {count : ℤ} {permits : Int32} {timeout : ℤ} {a : Attempt Unit}
  {message : String} {amount : Int32} {cond' : Prop}

/-- The session has been used, and whether the count is balanced again comes down to
`cond`. -/
def Settled (st st' : State) (sessionId : ℤ) (cond : Prop) : Prop :=
  ∃ d e, Moved st st' sessionId d e ∧ d - e < 2 ^ 32 ∧ -2 ^ 32 < d - e ∧
    (d = e ∧ Fits (held st.events sessionId + e) ↔ cond)

/-- The step keeps the numbering, and the balance exactly under the condition. -/
theorem Settled.step (h : Settled st st' sessionId cond) (hwf : st.WellFormed) (hbal : st.Balanced)
    (hiff : cond ↔ cond') : st'.WellFormed ∧ (st'.Balanced ↔ cond') := by
  obtain ⟨d, e, hmoved, hlt, hgt, hcond⟩ := h
  exact ⟨hmoved.wellFormed hwf,
    ((hmoved.balanced_iff hwf hbal hlt hgt).trans hcond).trans hiff⟩

theorem Settled.congr (h : Settled st st' sessionId cond) (hiff : cond ↔ cond') :
    Settled st st' sessionId cond' := by
  obtain ⟨d, e, hmoved, hlt, hgt, hcond⟩ := h
  exact ⟨d, e, hmoved, hlt, hgt, hcond.trans hiff⟩

theorem fits_of_acquire (hwf : st.WellFormed) (hbal : st.Balanced)
    (h : st.manager.acquireSession lookup count = .ok (sessionId, m)) :
    Fits (held st.events sessionId) := by
  obtain ⟨-, ⟨s, hs, rfl, -⟩ | ⟨hnew, -, -⟩⟩ := acquireSession_eq_ok h
  · rw [← hbal s hs]
    exact int32_eq_self_iff.mp (hwf.count s hs)
  · rw [hwf.events _ hnew]
    exact ⟨by decide, by decide⟩

/-- No permits have been obtained. -/
theorem settled_of_shifted {d : ℤ} (h : Shifted st.manager m sessionId d)
    (hfits : Fits (held st.events sessionId)) (hlt : d < 2 ^ 32) (hgt : -2 ^ 32 < d) :
    Settled st ⟨m, st.events ++ []⟩ sessionId (d = 0) := by
  refine ⟨d, 0, ⟨h, [], rfl, by simp⟩, by omega, by omega, ?_⟩
  rw [← add_zero (held st.events sessionId)] at hfits
  exact and_iff_left hfits

section

variable (hwf : st.WellFormed) (hbal : st.Balanced)

include hwf hbal

section

variable (h : st.manager.acquireSession lookup count = .ok (sessionId, m))

include h

/-- What has been acquired in advance is kept, and `q` of it is given back. -/
theorem settled_of_release {q : ℤ} (hlt : count - q < 2 ^ 32) (hgt : -2 ^ 32 < count - q) :
    Settled st ⟨m.releaseSession sessionId q, st.events ++ []⟩ sessionId (count = q) :=
  (settled_of_shifted (shifted_of_acquire h).release (fits_of_acquire hwf hbal h) hlt hgt).congr
    sub_eq_zero

theorem settled_of_failure (hlt : count < 2 ^ 32) (hgt : -2 ^ 32 < count) :
    Settled st ⟨m, st.events ++ []⟩ sessionId (count = 0) :=
  settled_of_shifted (shifted_of_acquire h) (fits_of_acquire hwf hbal h) hlt hgt

end

/-- A call whose first step is to acquire the session. -/
theorem step_of_acquire {cond : ℤ → Prop}
    (herror : ∀ e, st.manager.acquireSession lookup count = .error e → st' = st)
    (hok : ∀ sessionId m, st.manager.acquireSession lookup count = .ok (sessionId, m) →
      Settled st st' sessionId (cond sessionId)) :
    st'.WellFormed ∧ (st'.Balanced ↔ ∀ sessionId m,
      st.manager.acquireSession lookup count = .ok (sessionId, m) → cond sessionId) := by
  cases hacq : st.manager.acquireSession lookup count with
  | error e =>
    rw [herror e hacq]
    exact ⟨hwf, iff_of_true hbal nofun⟩
  | ok found =>
    obtain ⟨sessionId, m⟩ := found
    exact (hok sessionId m hacq).step hwf hbal (by simp)

theorem settled_tryAcquire {a : Attempt Bool} {rest : List (Attempt Bool)}
    (hne : a.answer ≠ .error .sessionExpired) (hpermits : 0 ≤ permits.toInt)
    (h : st.manager.acquireSession a.lookup permits.toInt = .ok (sessionId, m)) :
    Settled st (st.after (tryAcquireForMillis objectName permits timeout st.manager (a :: rest)))
      sessionId (SettlesAcquire permits (held st.events sessionId) a.answer) := by
  have hlt := permits.toInt_lt
  rw [tryAcquireForMillis, checkNotNegative_of_le hpermits]
  simp only [tryAcquireLoop, doTryAcquireOnce, h]
  cases hanswer : a.answer with
  | ok acquired =>
    cases acquired with
    | true =>
      refine ⟨permits.toInt, permits.toInt, ⟨shifted_of_acquire h, _, rfl, ?_⟩, by omega,
        by omega, ?_⟩
      · exact held_acquired _ _
      · exact and_iff_right rfl
    | false => exact settled_of_release hwf hbal h (by omega) (by omega)
  | error e =>
    cases e with
    | sessionExpired => exact absurd hanswer hne
    | waitKeyCancelled =>
      have hsettled := settled_of_release hwf hbal h (q := permits.toInt) (by omega) (by omega)
      simp only [SettlesAcquire]
      rw [eq_self_iff_true] at hsettled
      split_ifs
      · exact hsettled
      · exact hsettled
    | illegalMonitorState | other code => exact settled_of_failure hwf hbal h (by omega) (by omega)

theorem settled_drain {a : Attempt Int32} {rest : List (Attempt Int32)}
    (hne : a.answer ≠ .error .sessionExpired)
    (hcount : ∀ count, a.answer = .ok count → 0 ≤ count.toInt)
    (h : st.manager.acquireSession a.lookup drainSessionAcqCount = .ok (sessionId, m)) :
    Settled st (st.after (drainPermits st.manager (a :: rest))) sessionId
      (∃ count, a.answer = .ok count ∧ Fits (held st.events sessionId + count.toInt)) := by
  have hdrain : drainSessionAcqCount = 1024 := rfl
  simp only [drainPermits, doDrainOnce, h]
  cases hanswer : a.answer with
  | ok count =>
    have hpos := hcount count hanswer
    have hlt := count.toInt_lt
    simp only [show count.toInt ≠ -1 by omega, ↓reduceIte]
    refine ⟨drainSessionAcqCount - (drainSessionAcqCount - count.toInt), count.toInt,
      ⟨(shifted_of_acquire h).release, _, rfl, held_acquired _ _⟩, by omega, by omega, ?_⟩
    simp
  | error e =>
    have hlost : Settled st ⟨m, st.events ++ []⟩ sessionId (∃ count : Int32,
        (Except.error e : Except ServerError Int32) = .ok count ∧
          Fits (held st.events sessionId + count.toInt)) :=
      (settled_of_failure hwf hbal h (by omega) (by omega)).congr (by simp [hdrain])
    cases e with
    | sessionExpired => exact absurd hanswer hne
    | waitKeyCancelled | illegalMonitorState | other code => exact hlost

theorem settled_changePermits (hne : a.answer ≠ .error .sessionExpired) (hamount : 0 < amount.toInt)
    (h : st.manager.acquireSession a.lookup drainSessionAcqCount = .ok (sessionId, m)) :
    Settled st (st.after (changePermits message amount st.manager a)) sessionId False := by
  have hdrain : drainSessionAcqCount = 1024 := rfl
  have hkept : Settled st ⟨m, st.events ++ []⟩ sessionId False :=
    (settled_of_failure hwf hbal h (by omega) (by omega)).congr (by simp [hdrain])
  rw [changePermits, checkNotNegative_of_le hamount.le]
  simp only [hamount.ne', ↓reduceIte, doChangePermits, h]
  cases hanswer : a.answer with
  | ok _ =>
    exact (settled_of_release hwf hbal h (by omega) (by omega)).congr (by simp [hdrain])
  | error e =>
    cases e with
    | sessionExpired => exact absurd hanswer hne
    | waitKeyCancelled | illegalMonitorState | other code => exact hkept

end

theorem settled_release {s : SessionState} (hwf : st.WellFormed) (hpermits : 0 < permits.toInt)
    (hs : st.manager.session = some s) :
    Settled st (st.after (release permits st.manager (.ok ()))) s.id
      (Fits (held st.events s.id - permits.toInt)) := by
  have hlt := permits.toInt_lt
  have hcheck : checkPositive permits.toInt "Permits must be positive!" = .ok () :=
    if_neg (not_le.mpr hpermits)
  have hsession : st.manager.getSession = s.id := by simp [getSession, hs]
  have hid : s.id ≠ noSessionId := by
    have hnonneg := (hwf.session s hs).1
    intro heq
    rw [heq] at hnonneg
    exact absurd hnonneg (by decide)
  unfold release
  rw [hcheck]
  simp only [hsession, hid, ↓reduceIte]
  refine ⟨-permits.toInt, -permits.toInt, ⟨?_, _, rfl, held_released _ _⟩, by omega, by omega, ?_⟩
  · refine ⟨s.release permits.toInt, ?_, rfl, .inl ⟨s, hs, rfl, ?_, rfl⟩⟩
    · simp [State.after, releaseSession, hs]
    · simp [State.after, releaseSession, hs]
  · rw [sub_eq_add_neg]
    exact and_iff_right rfl

theorem step_tryAcquire {attempts : List (Attempt Bool)} (hwf : st.WellFormed) (hbal : st.Balanced)
    (hscope : ∃ a rest, attempts = a :: rest ∧ a.answer ≠ .error .sessionExpired) :
    (st.after (tryAcquireForMillis objectName permits timeout st.manager attempts)).WellFormed ∧
    ((st.after (tryAcquireForMillis objectName permits timeout st.manager attempts)).Balanced ↔
      (0 ≤ permits.toInt → ∀ a ∈ attempts.head?, ∀ sessionId m,
        st.manager.acquireSession a.lookup permits.toInt = .ok (sessionId, m) →
        SettlesAcquire permits (held st.events sessionId) a.answer)) := by
  obtain ⟨a, rest, rfl, hne⟩ := hscope
  by_cases hpermits : 0 ≤ permits.toInt
  · refine And.imp_right (·.trans (by simp [hpermits])) (step_of_acquire hwf hbal
      (fun e hacq => ?_) fun _ _ => settled_tryAcquire hwf hbal hne hpermits)
    simp only [tryAcquireForMillis, checkNotNegative_of_le hpermits, tryAcquireLoop,
        doTryAcquireOnce, hacq, State.after_unchanged]
  · rw [tryAcquireForMillis, checkNotNegative_of_lt (not_le.mp hpermits)]
    simp only [State.after_unchanged]
    exact ⟨hwf, iff_of_true hbal fun h => absurd h hpermits⟩

theorem step_changePermits (hwf : st.WellFormed) (hbal : st.Balanced)
    (hne : a.answer ≠ .error .sessionExpired) :
    (st.after (changePermits message amount st.manager a)).WellFormed ∧
    ((st.after (changePermits message amount st.manager a)).Balanced ↔
      (0 < amount.toInt → ∀ sessionId m,
        st.manager.acquireSession a.lookup drainSessionAcqCount ≠ .ok (sessionId, m))) := by
  by_cases hamount : 0 < amount.toInt
  · refine And.imp_right (·.trans (by simp [hamount])) (step_of_acquire hwf hbal
      (fun e hacq => ?_) fun _ _ => settled_changePermits hwf hbal hne hamount)
    simp only [changePermits, checkNotNegative_of_le hamount.le, hamount.ne', ↓reduceIte,
      doChangePermits, hacq, State.after_unchanged]
  · have hsame : st.after (changePermits message amount st.manager a) = st := by
      unfold changePermits checkNotNegative
      by_cases hneg : amount.toInt < 0
      · simp [hneg]
      · have hzero : amount.toInt = 0 := by omega
        simp [hzero]
    rw [hsame]
    exact ⟨hwf, iff_of_true hbal fun h => absurd h hamount⟩

theorem after_release_unchanged {answer : Except ServerError Unit}
    (hne : answer ≠ .error .sessionExpired)
    (hnot : ¬ (0 < permits.toInt ∧ answer = .ok () ∧ st.manager.session.isSome)) :
    st.after (release permits st.manager answer) = st := by
  unfold release checkPositive
  by_cases hpermits : permits.toInt ≤ 0
  · simp [hpermits]
  · simp only [hpermits, ↓reduceIte]
    cases hs : st.manager.session with
    | none => simp [getSession, hs]
    | some s =>
      split_ifs
      · exact State.after_unchanged st _
      · cases answer with
        | ok _ => exact absurd ⟨not_le.mp hpermits, rfl, by simp [hs]⟩ hnot
        | error e =>
          cases e with
          | sessionExpired => exact absurd rfl hne
          | waitKeyCancelled | illegalMonitorState | other code => exact State.after_unchanged st _

/-- One call: it keeps the numbering, and the balance exactly when it settles. -/
theorem step_call (objectName : String) (hwf : st.WellFormed) (hbal : st.Balanced) {c : Call}
    (hscope : c.InScope) :
    (st.call objectName c).WellFormed ∧ ((st.call objectName c).Balanced ↔ c.Settles st) := by
  cases c with
  | acquire permits attempts | tryAcquireFor relTime permits attempts =>
    exact step_tryAcquire hwf hbal hscope
  | increasePermits increase a | reducePermits reduction a =>
    exact step_changePermits hwf hbal hscope
  | drainPermits attempts =>
    obtain ⟨a, rest, rfl, hne, hcount⟩ := hscope
    refine And.imp_right (·.trans (by simp [Call.Settles])) (step_of_acquire hwf hbal
      (fun e hacq => ?_) fun _ _ => settled_drain hwf hbal hne hcount)
    simp only [State.call, drainPermits, doDrainOnce, hacq, State.after_unchanged]
  | release permits answer =>
    by_cases hdone : 0 < permits.toInt ∧ answer = .ok () ∧ st.manager.session.isSome
    · obtain ⟨hpermits, rfl, hsome⟩ := hdone
      obtain ⟨s, hs⟩ := Option.isSome_iff_exists.mp hsome
      exact (settled_release hwf hpermits hs).step hwf hbal (by simp [Call.Settles, hpermits, hs])
    · have hsame := after_release_unchanged hscope hdone
      refine ⟨by rwa [State.call, hsame], ?_⟩
      rw [State.call, hsame]
      refine iff_of_true hbal fun hpermits hok s hs => ?_
      exact absurd ⟨hpermits, hok, Option.isSome_iff_exists.mpr ⟨s, hs⟩⟩ hdone

end Step

def State.initial : State := ⟨{}, []⟩

theorem run_append_singleton (objectName : String) (st : State) (calls : List Call) (c : Call) :
    st.run objectName (calls ++ [c]) = (st.run objectName calls).call objectName c := by
  simp [State.run]

/-- The count of the session is balanced after every call of a sequence exactly when every
call of it settles in the state before it. -/
theorem balanced_after_each_call_iff (objectName : String) (calls : List Call)
    (hscope : ∀ c ∈ calls, c.InScope) :
    (∀ done, done <+: calls → (State.initial.run objectName done).Balanced) ↔
      ∀ done c, done ++ [c] <+: calls → c.Settles (State.initial.run objectName done) := by
  have hwf : State.initial.WellFormed :=
    ⟨by simp [State.initial], by simp [State.initial], fun _ _ => rfl⟩
  have hbal : State.initial.Balanced := by simp [State.Balanced, State.initial]
  -- While the count stays balanced the sessions stay numbered, which the last call needs.
  suffices h : _ ∧ ((∀ done, done <+: calls → (State.initial.run objectName done).Balanced) →
      (State.initial.run objectName calls).WellFormed) from h.1
  induction calls using List.reverseRecOn with
  | nil =>
    refine ⟨iff_of_true (fun done hdone => ?_) (by simp), fun _ => hwf⟩
    rwa [prefix_nil.mp hdone]
  | append_singleton calls c ih =>
    obtain ⟨hiff, hwf'⟩ := ih fun c' hc' => hscope c' (mem_append_left _ hc')
    have hc : c.InScope := hscope c (mem_append_right _ (mem_singleton_self c))
    have hstep := fun h => step_call objectName (hwf' h) (h calls prefix_rfl) hc
    simp only [prefix_concat_iff, append_singleton_inj, or_imp, forall_and, and_imp, forall_eq,
      run_append_singleton]
    refine ⟨?_, fun _ h => (hstep h).1⟩
    refine (and_congr_left fun h => (hstep h).2).trans (and_congr ⟨?_, ?_⟩ hiff)
    · rintro h _ _ rfl rfl
      exact h
    · exact fun h => h _ _ rfl rfl

/-- Three permits are acquired, and two of them released. -/
theorem balanced_after_each_call_released :
    (State.initial.run "semaphore" [.acquire 3 [⟨⟨0, .ok ⟨0, 60000, 0⟩⟩, .ok true, 0⟩],
      .release 2 (.ok ())]).Balanced := by
  refine (balanced_after_each_call_iff "semaphore" _ ?_).mpr ?_ _ prefix_rfl
  · simp [Call.InScope]
  · intro done c hdone
    rcases done with _ | ⟨c', _ | ⟨c'', done⟩⟩
    · obtain rfl : c = .acquire 3 [⟨⟨0, .ok ⟨0, 60000, 0⟩⟩, .ok true, 0⟩] := by simpa using hdone
      intro _ a ha sessionId m hacq
      cases ha
      cases Except.ok.inj hacq
      exact ⟨by decide, by decide⟩
    · obtain ⟨rfl, rfl⟩ : c' = .acquire 3 [⟨⟨0, .ok ⟨0, 60000, 0⟩⟩, .ok true, 0⟩] ∧
          c = .release 2 (.ok ()) := by simpa using hdone
      intro _ _ s hs
      cases hs
      exact ⟨by decide, by decide⟩
    · exact absurd hdone.length_le (by simp)

/-- Two permits are not to be had. The session has been acquired twice for them and is
released once. -/
theorem unbalanced_after_not_acquired :
    Call.InScope (.tryAcquireFor 0 2 [⟨⟨0, .ok ⟨0, 60000, 0⟩⟩, .ok false, 0⟩]) ∧
      ((State.initial.run "semaphore"
        [.tryAcquireFor 0 2 [⟨⟨0, .ok ⟨0, 60000, 0⟩⟩, .ok false, 0⟩]]).manager.session.map
          SessionState.acquireCount) = some 1 ∧
      ¬ (State.initial.run "semaphore"
        [.tryAcquireFor 0 2 [⟨⟨0, .ok ⟨0, 60000, 0⟩⟩, .ok false, 0⟩]]).Balanced := by
  have hsession : (State.initial.run "semaphore"
      [.tryAcquireFor 0 2 [⟨⟨0, .ok ⟨0, 60000, 0⟩⟩, .ok false, 0⟩]]).manager.session =
      some ⟨0, 60000, 0, 1⟩ := by rfl
  refine ⟨⟨_, _, rfl, by simp⟩, by rw [hsession]; rfl, fun hbal => ?_⟩
  have hcount : (1 : ℤ) = 0 := hbal _ hsession
  exact absurd hcount (by decide)

end Semaphore

end HazelcastClient.Cp
