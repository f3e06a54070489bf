import Mathlib.Tactic.Ring

/-!
# Sessions with a CP group

`proxy_session_manager` keeps one session for each CP group; this is the session of a
single group. Proxies acquire it before they send a request and release it afterwards, and
an expired session that nobody uses is replaced by a new one.

`invalidate_session` has a parameter for the id of the session and does not look at it. It
drops whatever session there is.
-/

namespace HazelcastClient.Cp

inductive ServerError where
  | sessionExpired
  | waitKeyCancelled
  | illegalMonitorState
  | other (code : ℤ)
  deriving DecidableEq

inductive CpException where
  | ofServer (error : ServerError)
  | instanceNotActive (source message : String)
  | illegalArgument (source message : String)
  | illegalState (source message : String)
  | illegalMonitorState (source message : String)
  | lockOwnershipLost (source message : String)
  | lockAcquireLimitReached (source message : String)
  deriving DecidableEq

/-- The value of an `int32_t` after an addition. -/
def int32 (x : ℤ) : ℤ := x.bmod (2 ^ 32)

theorem int32_add_int32 (x y : ℤ) : int32 (int32 x + y) = int32 (x + y) :=
  Int.bmod_add_bmod

theorem int32_sub_int32 (x y : ℤ) : int32 (int32 x - y) = int32 (x - y) :=
  Int.bmod_sub_bmod

theorem int32_eq_self_iff {x : ℤ} : int32 x = x ↔ -2 ^ 31 ≤ x ∧ x < 2 ^ 31 := by
  unfold int32
  constructor
  · intro h
    have hle : -((2 ^ 32 : ℕ) / 2 : ℤ) ≤ x.bmod (2 ^ 32) := Int.le_bmod (by decide)
    have hlt : x.bmod (2 ^ 32) < ((2 ^ 32 : ℕ) + 1) / 2 := Int.bmod_lt (by decide)
    rw [h] at hle hlt
    omega
  · rintro ⟨hle, hlt⟩
    exact Int.bmod_eq_of_le (by omega) (by omega)

/-- `session_state`. Times are counted in nanoseconds. -/
structure SessionState where
  id : ℤ
  ttlMillis : ℤ
  creationTime : ℤ
  acquireCount : ℤ := 0
  deriving DecidableEq

namespace SessionState

def isInUse (s : SessionState) : Bool := 0 < s.acquireCount

/-- The time after which the session is expired. A sum that overflows stands for never. -/
def expirationTime (s : SessionState) : Option ℤ :=
  let time := (s.creationTime + 1000000 * s.ttlMillis).bmod (2 ^ 64)
  if time < 0 then none else some time

def isExpired (s : SessionState) (now : ℤ) : Bool :=
  s.expirationTime.any fun time => time < now

def isValid (s : SessionState) (now : ℤ) : Bool := s.isInUse || !s.isExpired now

def acquire (s : SessionState) (count : ℤ) : SessionState :=
  { s with acquireCount := int32 (s.acquireCount + count) }

def release (s : SessionState) (count : ℤ) : SessionState :=
  { s with acquireCount := int32 (s.acquireCount - count) }

@[simp] theorem acquire_id (s : SessionState) (count : ℤ) : (s.acquire count).id = s.id := rfl

end SessionState

/-- The answer to a request for a session. The server numbers the sessions of all clients;
`skipped` is how many it has created for others since the last one of this client. -/
structure NewSession where
  skipped : ℕ
  ttlMillis : ℤ
  receivedAt : ℤ

/-- What looking up a session meets: the time, and the answer to a request for a new
session in case one is needed. -/
structure Lookup where
  now : ℤ
  response : Except ServerError NewSession

/-- The session manager of a group, and the least number that the server has not used when
this client last got a session. -/
structure SessionManager where
  running : Bool := true
  session : Option SessionState := none
  created : ℕ := 0

namespace SessionManager

def noSessionId : ℤ := -1

def notActive : CpException :=
  .instanceNotActive "proxy_session_manager::get_or_create_session"
    "Session manager is already shut down!"

def createNewSession (m : SessionManager) (lookup : Lookup) :
    Except CpException (SessionState × SessionManager) :=
  match lookup.response with
  | .error e => .error (.ofServer e)
  | .ok response =>
    let id := m.created + response.skipped
    let state : SessionState := ⟨id, response.ttlMillis, response.receivedAt, 0⟩
    .ok (state, { m with session := some state, created := id + 1 })

def getOrCreateSession (m : SessionManager) (lookup : Lookup) :
    Except CpException (SessionState × SessionManager) :=
  if !m.running then .error notActive
  else
    match m.session with
    | none => m.createNewSession lookup
    | some state =>
      if state.isValid lookup.now then .ok (state, m) else m.createNewSession lookup

/-- The id of the session, which has been acquired `count` times more. -/
def acquireSession (m : SessionManager) (lookup : Lookup) (count : ℤ) :
    Except CpException (ℤ × SessionManager) :=
  (m.getOrCreateSession lookup).map fun found =>
    (found.1.id, { found.2 with session := some (found.1.acquire count) })

def invalidateSession (m : SessionManager) (_sessionId : ℤ) : SessionManager :=
  { m with session := none }

def releaseSession (m : SessionManager) (sessionId count : ℤ) : SessionManager :=
  match m.session with
  | none => m
  | some state =>
    if state.id = sessionId then { m with session := some (state.release count) } else m

/-- The id of the session, or `noSessionId`. -/
def getSession (m : SessionManager) : ℤ := m.session.elim noSessionId SessionState.id

theorem acquireSession_eq_ok {m m' : SessionManager} {lookup : Lookup} {count id : ℤ}
    (h : m.acquireSession lookup count = .ok (id, m')) :
    m'.running = m.running ∧
    ((∃ s, m.session = some s ∧ id = s.id ∧ m' = { m with session := some (s.acquire count) }) ∨
    (m.created ≤ id ∧ m'.created = id + 1 ∧
      ∃ s, m'.session = some (SessionState.acquire s count) ∧ s.id = id ∧
        s.acquireCount = 0)) := by
  have hcreate : ∀ found, m.createNewSession lookup = .ok found →
      id = found.1.id → m' = { found.2 with session := some (found.1.acquire count) } →
      m'.running = m.running ∧ (m.created ≤ id ∧ m'.created = id + 1 ∧
        ∃ s, m'.session = some (SessionState.acquire s count) ∧ s.id = id ∧
          s.acquireCount = 0) := by
    rintro found hfound rfl rfl
    revert hfound
    fun_cases createNewSession m lookup <;> rintro ⟨⟩
    exact ⟨rfl, Int.ofNat_le.mpr (Nat.le_add_right _ _), rfl, _, rfl, rfl, rfl⟩
  unfold acquireSession at h
  cases hfound : m.getOrCreateSession lookup with
  | error e => simp [hfound, Except.map] at h
  | ok found =>
    simp only [hfound, Except.map, Except.ok.injEq, Prod.mk.injEq] at h
    obtain ⟨rfl, rfl⟩ := h
    revert hfound
    fun_cases getOrCreateSession m lookup
    · exact nofun
    · exact fun hfound => (hcreate found hfound rfl rfl).imp_right .inr
    · rintro ⟨⟩
      exact ⟨rfl, .inl ⟨_, ‹_›, rfl, rfl⟩⟩
    · exact fun hfound => (hcreate found hfound rfl rfl).imp_right .inr

/-- A running manager that gets a new session when it needs one has a session to acquire. -/
theorem exists_acquireSession {m : SessionManager} {lookup : Lookup} {new : NewSession}
    (hrunning : m.running = true) (hnew : lookup.response = .ok new) (count : ℤ) :
    ∃ id m', m.acquireSession lookup count = .ok (id, m') ∧ m'.running = true := by
  have hfound : ∃ found, m.getOrCreateSession lookup = .ok found ∧ found.2.running = true := by
    unfold getOrCreateSession createNewSession
    simp only [hrunning, hnew, Bool.not_true, Bool.false_eq_true, ↓reduceIte]
    split
    · exact ⟨_, rfl, rfl⟩
    · split
      · exact ⟨_, rfl, hrunning⟩
      · exact ⟨_, rfl, rfl⟩
  obtain ⟨found, hfound, hstill⟩ := hfound
  exact ⟨found.1.id, { found.2 with session := some (found.1.acquire count) },
    by rw [acquireSession, hfound]; rfl, hstill⟩

end SessionManager

end HazelcastClient.Cp
