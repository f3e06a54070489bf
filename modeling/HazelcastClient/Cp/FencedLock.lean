import HazelcastClient.Cp.SessionManager
import HazelcastClient.Interleaving.Machine
import Mathlib.Data.List.AList

/-!
# Fenced locks

A `fenced_lock` belongs to a session of its CP group, and the proxy remembers for each
thread the session under which the thread holds the lock. Every operation compares this
record with the session it is going to use. When the two differ the lock is lost: the
record is dropped and the operation fails.

Requests are answered through futures. Their continuations run on other threads and touch
the records and the session as well, so every access to shared data is a step of its own.
The attempt of `lock` and `try_lock` that follows a first one is made in the continuation
of the first.
-/

namespace HazelcastClient.Cp.FencedLock

open Interleaving

/-- The operations; a timeout is in milliseconds. -/
inductive Op where
  | lock
  | tryLock (timeout : ℤ)
  | unlock
  | getFence
  | isLocked
  | isLockedByCurrentThread
  | getLockCount
  deriving DecidableEq

namespace Op

def acquires : Op → Bool
  | lock | tryLock _ => true
  | _ => false

def needsSession : Op → Bool
  | unlock | getFence => true
  | _ => false

theorem needsSession_of_acquires {op : Op} (h : op.acquires = true) : op.needsSession = false := by
  cases op with
  | lock | tryLock timeout => rfl
  | _ => cases h

end Op

/-- A call with the uid of its invocations; `second` marks the attempt after the first. -/
structure Call where
  op : Op
  thread : ℤ
  uid : ℕ
  second : Bool := false
  deriving DecidableEq

def invalidFence : ℤ := 0

/-- `lock_ownership_state`. -/
structure Ownership where
  fence : ℤ
  lockCount : ℤ
  sessionId : ℤ
  threadId : ℤ

namespace Ownership

def isLocked (o : Ownership) : Bool := o.fence ≠ invalidFence

def isLockedBy (o : Ownership) (session thread : ℤ) : Bool :=
  o.isLocked && o.sessionId = session && o.threadId = thread

end Ownership

inductive Answer where
  | fence (value : ℤ)
  | unlocked (stillLocked : Bool)
  | ownership (state : Ownership)
  | error (e : ServerError)

inductive Value where
  | fence (value : ℤ)
  | unit
  | bool (value : Bool)
  | count (value : ℤ)

/-- How a call goes on: an attempt has ended with a fence and may ask for another one, or
the future of the call gets its result. -/
inductive After where
  | attempt (fence : ℤ) (again : Bool)
  | returned (value : Value)
  | threw (e : CpException)

def After.asksAgain : After → Bool
  | attempt _ again => again
  | _ => false

inductive Frame where
  /-- `acquire_session` or `get_session` -/
  | session (c : Call)
  /-- `verify_locked_session_id_if_present`, and where it drops the record -/
  | verify (c : Call) (session start : ℤ)
  | forget (c : Call) (session found : ℤ)
  | send (c : Call) (session start : ℤ)
  /-- the continuation of the request -/
  | answer (c : Call) (session start : ℤ)
  /-- the record of a lock that was acquired -/
  | locked (c : Call) (session fence : ℤ)
  /-- the release of the session of a lock that was given up -/
  | unlocked (c : Call) (session : ℤ)
  | put (thread session : ℤ)
  | remove (thread : ℤ)
  | release (session : ℤ)
  | invalidate (c : Call) (session : ℤ)
  /-- `verify_no_locked_session_id_present` -/
  | verifyNone (c : Call) (after : After)
  | done (c : Call) (after : After)

/-- What a step meets: a lookup of the session, begun at the time `start`; an answer at the
time `now`; or nothing. The environment starts calls, and a heartbeat may find the session
expired. -/
inductive Choice where
  | lookup (start : ℤ) (lookup : Lookup)
  | answer (now : ℤ) (answer : Answer)
  | go
  | call (c : Call)
  | heartbeatFailed

inductive Event where
  | sent (c : Call) (session : ℤ)
  | locked (c : Call) (session fence : ℤ)
  | unlocked (c : Call) (session : ℤ)
  | returned (c : Call) (value : Value)
  | threw (c : Call) (e : CpException)

/-- The shared data: the session manager and `locked_session_ids_`. -/
structure State where
  manager : SessionManager := {}
  lockedSessionIds : AList fun _ : ℤ => ℤ := ∅

structure Proxy where
  name : String
  objectName : String

namespace Proxy

variable (p : Proxy)

def lockOwnershipLost (session : ℤ) : CpException :=
  .lockOwnershipLost "fenced_lock"
    ("Current thread is not owner of the Lock[" ++ p.name ++ "] because its Session[" ++
      toString session ++ "] is closed by server!")

def illegalMonitorState : CpException :=
  .illegalMonitorState "fenced_lock" ("Current thread is not owner of the Lock[" ++ p.name ++ "]")

def limitReached : CpException :=
  .lockAcquireLimitReached "fenced_lock::lock_and_get_fence"
    ("Lock [" ++ p.objectName ++ "] reentrant lock limit is already reached!")

def lockCancelled : CpException :=
  .lockAcquireLimitReached "fenced_lock::lock_and_get_fence"
    ("Lock [" ++ p.objectName ++ "] not acquired because the lock call on the CP group is " ++
      "cancelled, possibly because of another indeterminate call from the same thread.")

def proceed (c : Call) (session start : ℤ) : List Frame :=
  if c.op.needsSession && session = SessionManager.noSessionId then
    [.remove c.thread, .done c (.threw p.illegalMonitorState)]
  else [.send c session start]

/-- The continuation of the requests of `lock`. -/
def lockAnswered (c : Call) (session : ℤ) : Answer → Option (List Frame)
  | .fence value =>
    if value ≠ invalidFence then some [.locked c session value]
    else some [.release session, .done c (.threw p.limitReached)]
  | .error .sessionExpired =>
    some [.invalidate c session, .verifyNone c (.attempt invalidFence true)]
  | .error .waitKeyCancelled => some [.release session, .done c (.threw p.lockCancelled)]
  | .error e => some [.release session, .done c (.threw (.ofServer e))]
  | _ => none

/-- The continuation of the requests of `try_lock`. Whether time is left makes no
difference. -/
def tryLockAnswered (c : Call) (session timeout elapsed : ℤ) : Answer → Option (List Frame)
  | .fence value =>
    if value ≠ invalidFence then some [.locked c session value]
    else some [.release session, .done c (.attempt value false)]
  | .error .sessionExpired =>
    some [.invalidate c session, .verifyNone c
      (if 1000000 * timeout - elapsed ≤ 0 then .attempt invalidFence false
        else .attempt invalidFence false)]
  | .error .waitKeyCancelled => some [.release session, .done c (.attempt invalidFence false)]
  | .error e => some [.release session, .done c (.threw (.ofServer e))]
  | _ => none

def unlockAnswered (c : Call) (session : ℤ) : Answer → Option (List Frame)
  | .unlocked stillLocked =>
    some [if stillLocked then .put c.thread session else .remove c.thread, .unlocked c session]
  | .error .sessionExpired =>
    some [.invalidate c session, .remove c.thread,
      .done c (.threw (p.lockOwnershipLost session))]
  | .error .illegalMonitorState =>
    some [.remove c.thread, .done c (.threw (.ofServer .illegalMonitorState))]
  | .error e => some [.done c (.threw (.ofServer e))]
  | _ => none

/-- The continuation of the queries, which differ in what they make of the ownership: when
the lock is held by the calling thread, and when it is not. -/
def queryAnswered (c : Call) (session : ℤ) (mine others : Ownership → After) :
    Answer → Option (List Frame)
  | .ownership o =>
    if o.isLockedBy session c.thread then some [.put c.thread session, .done c (mine o)]
    else some [.verifyNone c (others o)]
  | .error e => some [.done c (.threw (.ofServer e))]
  | _ => none

def answered (c : Call) (session elapsed : ℤ) : Answer → Option (List Frame) :=
  match c.op with
  | .lock => p.lockAnswered c session
  | .tryLock timeout => tryLockAnswered c session timeout elapsed
  | .unlock => p.unlockAnswered c session
  | .getFence =>
    queryAnswered c session (fun o => .returned (.fence o.fence))
      fun _ => .threw p.illegalMonitorState
  | .isLocked =>
    queryAnswered c session (fun _ => .returned (.bool true))
      fun o => .returned (.bool o.isLocked)
  | .isLockedByCurrentThread =>
    queryAnswered c session (fun _ => .returned (.bool true)) fun _ => .returned (.bool false)
  | .getLockCount =>
    queryAnswered c session (fun o => .returned (.count o.lockCount))
      fun o => .returned (.count o.lockCount)

/-- The end of an attempt or of a call. When the second attempt asks for another one, the
loop has no body that would make it. -/
def finish (s : State) (c : Call) : After → Effect State Unit Frame Event
  | .attempt fence again =>
    if !again then { shared := s, event := some (.returned c (.fence fence)) }
    else if c.second then { shared := s, next := [.done c (.attempt fence again)] }
    else { shared := s, next := [.session { c with second := true }] }
  | .returned value => { shared := s, event := some (.returned c value) }
  | .threw e => { shared := s, event := some (.threw c e) }

def fireSession (s : State) (c : Call) (start : ℤ) (lookup : Lookup) :
    Effect State Unit Frame Event :=
  if c.op.acquires then
    match s.manager.acquireSession lookup 1 with
    | .error e => { shared := s, next := [.done c (.threw e)] }
    | .ok (session, m) => { shared := { s with manager := m }, next := [.verify c session start] }
  else { shared := s, next := [.verify c s.manager.getSession start] }

def fireVerify (s : State) (c : Call) (session start : ℤ) : Effect State Unit Frame Event :=
  match s.lockedSessionIds.lookup c.thread with
  | none => { shared := s, next := p.proceed c session start }
  | some found =>
    if found ≠ session then { shared := s, next := [.forget c session found] }
    else { shared := s, next := p.proceed c session start }

/-- A record that is there is removed twice. -/
def fireVerifyNone (s : State) (c : Call) (after : After) : Effect State Unit Frame Event :=
  { shared := { s with lockedSessionIds := s.lockedSessionIds.erase c.thread }
    next := match s.lockedSessionIds.lookup c.thread with
      | none => [.done c after]
      | some found => [.remove c.thread, .done c (.threw (p.lockOwnershipLost found))] }

def fire (s : State) (choice : Choice) : Frame → Option (Effect State Unit Frame Event)
  | .session c =>
    match choice with
    | .lookup start lookup => some (fireSession s c start lookup)
    | _ => none
  | .verify c session start => some (p.fireVerify s c session start)
  | .forget c session found =>
    some { shared := { s with lockedSessionIds := s.lockedSessionIds.erase c.thread }
           next := (if c.op.acquires then [.release session] else []) ++
             [.done c (.threw (p.lockOwnershipLost found))] }
  | .send c session start =>
    some { shared := s, next := [.answer c session start], event := some (.sent c session) }
  | .answer c session start =>
    match choice with
    | .answer now answer =>
      (p.answered c session (now - start) answer).map fun frames =>
        { shared := s, next := frames }
    | _ => none
  | .locked c session fence =>
    some { shared := { s with lockedSessionIds := s.lockedSessionIds.insert c.thread session }
           event := some (.locked c session fence) }
  | .unlocked c session =>
    some { shared := { s with manager := s.manager.releaseSession session 1 }
           event := some (.unlocked c session) }
  | .put thread session =>
    some { shared := { s with lockedSessionIds := s.lockedSessionIds.insert thread session } }
  | .remove thread =>
    some { shared := { s with lockedSessionIds := s.lockedSessionIds.erase thread } }
  | .release session =>
    some { shared := { s with manager := s.manager.releaseSession session 1 } }
  | .invalidate _ session =>
    some { shared := { s with manager := s.manager.invalidateSession session } }
  | .verifyNone c after => some (p.fireVerifyNone s c after)
  | .done c after => some (finish s c after)

def machine : Machine State Unit Frame Choice Event where
  fire s _ choice f := p.fire s choice f
  outside s choice :=
    match choice with
    | .call c => some { shared := s, spawned := [⟨(), [.session { c with second := false }]⟩] }
    | .heartbeatFailed =>
      some { shared := { s with manager := s.manager.invalidateSession s.manager.getSession } }
    | _ => none

end Proxy

inductive Reaction (c : Call) (session : ℤ) : List Frame → Prop
  | locked (hop : c.op.acquires = true) (fence : ℤ) : Reaction c session [.locked c session fence]
  | failed (hop : c.op.acquires = true) (after : After) (hlast : after.asksAgain = false) :
      Reaction c session [.release session, .done c after]
  | expired (hop : c.op.acquires = true) (after : After)
      (hagain : after.asksAgain = true → c.op = .lock) :
      Reaction c session [.invalidate c session, .verifyNone c after]
  | kept (hop : c.op.acquires = false) :
      Reaction c session [.put c.thread session, .unlocked c session]
  | unlocked (hop : c.op.acquires = false) :
      Reaction c session [.remove c.thread, .unlocked c session]
  | lost (hop : c.op.acquires = false) (e : CpException) :
      Reaction c session [.invalidate c session, .remove c.thread, .done c (.threw e)]
  | notOwner (hop : c.op.acquires = false) (e : CpException) :
      Reaction c session [.remove c.thread, .done c (.threw e)]
  | threw (hop : c.op.acquires = false) (e : CpException) : Reaction c session [.done c (.threw e)]
  | mine (hop : c.op.acquires = false) (value : Value) :
      Reaction c session [.put c.thread session, .done c (.returned value)]
  | others (hop : c.op.acquires = false) (after : After) (hlast : after.asksAgain = false) :
      Reaction c session [.verifyNone c after]

/-- The thread has no record of a lock, or it is one of the session. -/
def State.Permits (s : State) (thread session : ℤ) : Prop :=
  s.lockedSessionIds.lookup thread = none ∨ s.lockedSessionIds.lookup thread = some session

inductive Fired (p : Proxy) (s : State) : Frame → Effect State Unit Frame Event → Prop
  | noSession (c : Call) (e : CpException) :
      Fired p s (.session c) { shared := s, next := [.done c (.threw e)] }
  | acquired (c : Call) (start : ℤ) {lookup : Lookup} {session : ℤ} {m : SessionManager}
      (hop : c.op.acquires = true) (h : s.manager.acquireSession lookup 1 = .ok (session, m)) :
      Fired p s (.session c)
        { shared := { s with manager := m }, next := [.verify c session start] }
  | found (c : Call) (start : ℤ) (hop : c.op.acquires = false) :
      Fired p s (.session c) { shared := s, next := [.verify c s.manager.getSession start] }
  | unowned (c : Call) (session start : ℤ) (hop : c.op.acquires = false) :
      Fired p s (.verify c session start)
        { shared := s, next := [.remove c.thread, .done c (.threw p.illegalMonitorState)] }
  | checked (c : Call) (session start : ℤ) (hpermits : s.Permits c.thread session) :
      Fired p s (.verify c session start) { shared := s, next := [.send c session start] }
  | differs (c : Call) (session start found : ℤ) :
      Fired p s (.verify c session start) { shared := s, next := [.forget c session found] }
  | forgot (c : Call) (session found : ℤ) :
      Fired p s (.forget c session found)
        { shared := { s with lockedSessionIds := s.lockedSessionIds.erase c.thread }
          next := (if c.op.acquires then [.release session] else []) ++
            [.done c (.threw (p.lockOwnershipLost found))] }
  | sent (c : Call) (session start : ℤ) :
      Fired p s (.send c session start)
        { shared := s, next := [.answer c session start], event := some (.sent c session) }
  | answered (c : Call) (session start : ℤ) {frames : List Frame} (h : Reaction c session frames) :
      Fired p s (.answer c session start) { shared := s, next := frames }
  | locked (c : Call) (session fence : ℤ) :
      Fired p s (.locked c session fence)
        { shared := { s with lockedSessionIds := s.lockedSessionIds.insert c.thread session }
          event := some (.locked c session fence) }
  | unlocked (c : Call) (session : ℤ) :
      Fired p s (.unlocked c session)
        { shared := { s with manager := s.manager.releaseSession session 1 }
          event := some (.unlocked c session) }
  | put (thread session : ℤ) :
      Fired p s (.put thread session)
        { shared := { s with lockedSessionIds := s.lockedSessionIds.insert thread session } }
  | removed (thread : ℤ) :
      Fired p s (.remove thread)
        { shared := { s with lockedSessionIds := s.lockedSessionIds.erase thread } }
  | released (session : ℤ) :
      Fired p s (.release session)
        { shared := { s with manager := s.manager.releaseSession session 1 } }
  | invalidated (c : Call) (session : ℤ) :
      Fired p s (.invalidate c session)
        { shared := { s with manager := s.manager.invalidateSession session } }
  | verified (c : Call) (after : After) :
      Fired p s (.verifyNone c after)
        { shared := { s with lockedSessionIds := s.lockedSessionIds.erase c.thread }
          next := [.done c after] }
  | stillLocked (c : Call) (after : After) (found : ℤ) :
      Fired p s (.verifyNone c after)
        { shared := { s with lockedSessionIds := s.lockedSessionIds.erase c.thread }
          next := [.remove c.thread, .done c (.threw (p.lockOwnershipLost found))] }
  | returned (c : Call) (after : After) (value : Value) :
      Fired p s (.done c after) { shared := s, event := some (.returned c value) }
  | threw (c : Call) (after : After) (e : CpException) :
      Fired p s (.done c after) { shared := s, event := some (.threw c e) }
  | spins (c : Call) (after : After) :
      Fired p s (.done c after) { shared := s, next := [.done c after] }
  | again (c : Call) (fence : ℤ) (hfirst : c.second = false) :
      Fired p s (.done c (.attempt fence true))
        { shared := s, next := [.session { c with second := true }] }

namespace Proxy

variable {p : Proxy} {c : Call} {session : ℤ} {answer : Answer} {frames : List Frame}
  {e : Effect State Unit Frame Event}

theorem reaction_of_lockAnswered (hop : c.op = .lock)
    (h : p.lockAnswered c session answer = some frames) : Reaction c session frames := by
  have hacquires : c.op.acquires = true := by rw [hop]; rfl
  revert h
  fun_cases lockAnswered p c session answer <;> rintro ⟨⟩
  case case1 => exact Reaction.locked hacquires _
  case case3 => exact Reaction.expired hacquires _ fun _ => hop
  all_goals exact Reaction.failed hacquires _ rfl

theorem reaction_of_tryLockAnswered {timeout elapsed : ℤ} (hop : c.op = .tryLock timeout)
    (h : tryLockAnswered c session timeout elapsed answer = some frames) :
    Reaction c session frames := by
  have hacquires : c.op.acquires = true := by rw [hop]; rfl
  revert h
  fun_cases tryLockAnswered c session timeout elapsed answer <;> rintro ⟨⟩
  case case1 => exact Reaction.locked hacquires _
  case case3 =>
    refine Reaction.expired hacquires _ fun hagain => ?_
    rw [ite_self] at hagain
    cases hagain
  all_goals exact Reaction.failed hacquires _ rfl

theorem reaction_of_unlockAnswered (hop : c.op.acquires = false)
    (h : p.unlockAnswered c session answer = some frames) : Reaction c session frames := by
  revert h
  fun_cases unlockAnswered p c session answer <;> rintro ⟨⟩
  case case1 stillLocked =>
    cases stillLocked with
    | true => exact Reaction.kept hop
    | false => exact Reaction.unlocked hop
  · exact Reaction.lost hop _
  · exact Reaction.notOwner hop _
  · exact Reaction.threw hop _

theorem reaction_of_queryAnswered {mine : Ownership → Value} {others : Ownership → After}
    (hop : c.op.acquires = false) (hothers : ∀ o, (others o).asksAgain = false)
    (h : queryAnswered c session (fun o => .returned (mine o)) others answer = some frames) :
    Reaction c session frames := by
  revert h
  fun_cases queryAnswered c session (fun o => .returned (mine o)) others answer <;> rintro ⟨⟩
  · exact Reaction.mine hop _
  · exact Reaction.others hop _ (hothers _)
  · exact Reaction.threw hop _

theorem reaction_of_answered {elapsed : ℤ}
    (h : p.answered c session elapsed answer = some frames) : Reaction c session frames := by
  cases hop : c.op <;> simp only [answered, hop] at h
  case lock => exact reaction_of_lockAnswered hop h
  case tryLock => exact reaction_of_tryLockAnswered hop h
  case unlock => exact reaction_of_unlockAnswered (by rw [hop]; rfl) h
  all_goals exact reaction_of_queryAnswered (by rw [hop]; rfl) (fun _ => rfl) h

section Fired

variable {s : State} {choice : Choice}

theorem fired_session (s : State) (c : Call) (start : ℤ) (lookup : Lookup) :
    Fired p s (.session c) (fireSession s c start lookup) := by
  fun_cases fireSession s c start lookup
  · exact Fired.noSession c _
  · exact Fired.acquired c start ‹_› ‹_›
  · exact Fired.found c start (Bool.eq_false_of_not_eq_true ‹_›)

theorem fired_verify (s : State) (c : Call) (session start : ℤ) :
    Fired p s (.verify c session start) (p.fireVerify s c session start) := by
  have hproceed : s.Permits c.thread session →
      Fired p s (.verify c session start) { shared := s, next := p.proceed c session start } := by
    intro hpermits
    unfold proceed
    split
    · rename_i hneeds
      refine Fired.unowned c session start ?_
      cases hop : c.op.acquires with
      | false => rfl
      | true => simp [Op.needsSession_of_acquires hop] at hneeds
    · exact Fired.checked c session start hpermits
  fun_cases fireVerify p s c session start
  case case1 hnone => exact hproceed (.inl hnone)
  case case2 found _ _ => exact Fired.differs c session start found
  case case3 hfound hsame =>
    rw [not_not.mp hsame] at hfound
    exact hproceed (.inr hfound)

theorem fired_done (s : State) (c : Call) (after : After) :
    Fired p s (.done c after) (finish s c after) := by
  fun_cases finish s c after
  case case2 => exact Fired.spins c _
  case case3 fence again hagain hsecond =>
    rw [Bool.not_eq_true', Bool.not_eq_false] at hagain
    subst hagain
    exact Fired.again c fence (Bool.eq_false_of_not_eq_true hsecond)
  case case5 => exact Fired.threw c _ _
  all_goals exact Fired.returned c _ _

theorem fired_of_fire {f : Frame} (h : p.fire s choice f = some e) : Fired p s f e := by
  cases f with
  | session c =>
    cases choice with
    | lookup start lookup => cases h; exact fired_session s c start lookup
    | _ => cases h
  | verify c session start => cases h; exact fired_verify s c session start
  | forget c session found => cases h; exact Fired.forgot c session found
  | send c session start => cases h; exact Fired.sent c session start
  | answer c session start =>
    cases choice with
    | answer now answer =>
      obtain ⟨frames, hframes, rfl⟩ := Option.map_eq_some_iff.mp h
      exact Fired.answered c session start (reaction_of_answered hframes)
    | _ => cases h
  | locked c session fence => cases h; exact Fired.locked c session fence
  | unlocked c session => cases h; exact Fired.unlocked c session
  | put thread session => cases h; exact Fired.put thread session
  | remove thread => cases h; exact Fired.removed thread
  | release session => cases h; exact Fired.released session
  | invalidate c session => cases h; exact Fired.invalidated c session
  | verifyNone c after =>
    cases h
    unfold fireVerifyNone
    split
    · exact Fired.verified c after
    · exact Fired.stillLocked c after _
  | done c after => cases h; exact fired_done s c after

end Fired

theorem spawned_of_fire {s : State} {choice : Choice} {f : Frame} (h : p.fire s choice f = some e) :
    e.spawned = [] := by
  cases fired_of_fire h <;> rfl

end Proxy

end HazelcastClient.Cp.FencedLock
