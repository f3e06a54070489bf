import HazelcastClient.Cp.FencedLock

/-!
# Sessions of a fenced lock

The record of the session under which a thread holds the lock is read before a request is
sent, and it is written by the continuations of other requests. A call that finds another
session there fails and sends nothing. A continuation that records another session between
the check and the request is not noticed.

The use count of the session is raised before the request, so it is ahead of the locks that
were acquired by the number of calls under way.
-/

namespace HazelcastClient.Cp.FencedLock

open Interleaving List Proxy SessionManager AList

/-! ## The records -/

def Frame.writes : Frame → Option (ℤ × ℤ)
  | locked c id _ => some (c.thread, id)
  | put thread id => some (thread, id)
  | _ => none

/-- No continuation records another session for a thread between the check of a call of
this thread and its request. -/
def Undisturbed (c : Config State Unit Frame) : Move Frame Choice → Prop
  | .frame f _ => ∀ thread session, f.writes = some (thread, session) →
      ∀ call session' start, .send call session' start ∈ c.frames → call.thread = thread →
        session' = session
  | .outside _ => True

section Records

variable {p : Proxy} {s : State} {choice : Choice} {f : Frame} {e : Effect State Unit Frame Event}

theorem State.Permits.erase {thread session : ℤ} (h : s.Permits thread session) (t : ℤ)
    (s' : State) (hs' : s'.lockedSessionIds = s.lockedSessionIds.erase t) :
    s'.Permits thread session := by
  unfold State.Permits
  rw [hs']
  by_cases ht : thread = t
  · rw [ht]
    exact .inl (lookup_erase _ _)
  · rw [lookup_erase_ne ht]
    exact h

theorem State.Permits.insert {thread session t session' : ℤ} (h : s.Permits thread session)
    (hsame : thread = t → session = session')
    (s' : State) (hs' : s'.lockedSessionIds = s.lockedSessionIds.insert t session') :
    s'.Permits thread session := by
  unfold State.Permits
  rw [hs']
  by_cases ht : thread = t
  · rw [ht, hsame ht]
    exact .inr (lookup_insert _)
  · rw [lookup_insert_ne ht]
    exact h

section

variable (h : p.fire s choice f = some e)

include h

theorem records_of_fire :
    e.shared.lockedSessionIds = s.lockedSessionIds ∨
    (∃ thread, e.shared.lockedSessionIds = s.lockedSessionIds.erase thread) ∨
    ∃ thread session, f.writes = some (thread, session) ∧
      e.shared.lockedSessionIds = s.lockedSessionIds.insert thread session := by
  cases fired_of_fire h with
  | forgot c session found | verified c after | stillLocked c after found =>
    exact .inr (.inl ⟨c.thread, rfl⟩)
  | removed thread => exact .inr (.inl ⟨thread, rfl⟩)
  | locked c session fence => exact .inr (.inr ⟨c.thread, session, rfl, rfl⟩)
  | put thread session => exact .inr (.inr ⟨thread, session, rfl, rfl⟩)
  | _ => exact .inl rfl

theorem permits_of_send {c : Call} {session start : ℤ} (hsend : .send c session start ∈ e.next) :
    e.shared.Permits c.thread session := by
  cases fired_of_fire h with
  | checked c' session' start' hpermits =>
    cases mem_singleton.mp hsend
    exact hpermits
  | answered c' session' start' hframes => cases hframes <;> simp at hsend
  | forgot c' session' found => cases hop : c'.op.acquires <;> simp [hop] at hsend
  | _ => simp at hsend

theorem send_of_sent {c : Call} {session : ℤ} (hsent : e.event = some (.sent c session)) :
    ∃ start, f = .send c session start := by
  cases fired_of_fire h with
  | sent c' session' start =>
    cases hsent
    exact ⟨start, rfl⟩
  | _ => cases hsent

end

end Records

theorem outside_eq_some {p : Proxy} {s : State} {choice : Choice}
    {e : Effect State Unit Frame Event} (h : p.machine.outside s choice = some e) :
    e.shared.lockedSessionIds = s.lockedSessionIds ∧ e.event = none ∧
      (e.shared.manager = s.manager ∨ e.shared.manager = { s.manager with session := none }) ∧
      ∀ f ∈ e.spawnedFrames, ∃ c, f = .session c := by
  cases choice with
  | call c =>
    cases h
    refine ⟨rfl, rfl, .inl rfl, fun f hf => ?_⟩
    exact ⟨_, mem_singleton.mp hf⟩
  | heartbeatFailed =>
    cases h
    exact ⟨rfl, rfl, .inr rfl, fun f hf => absurd hf not_mem_nil⟩
  | _ => cases h

theorem permits_of_run {p : Proxy} {events : List Event} {c₁ : Config State Unit Frame}
    (hrun : Run p.machine Undisturbed ⟨{}, []⟩ events c₁) :
    ∀ call id start, .send call id start ∈ c₁.frames → c₁.shared.Permits call.thread id := by
  refine hrun.frameInvariant
    (P := fun _ s frames => ∀ call id start, .send call id start ∈ frames →
      s.Permits call.thread id) ?_ ?_ ?_ ?_
  · intro _ s l l' hperm h call id start hmem
    exact h call id start (hperm.mem_iff.mpr hmem)
  · intro call id start hmem
    cases hmem
  · intro es c' f choice others threads e _ hperm h hok hfire call id start hmem
    rw [Effect.spawnedFrames, p.spawned_of_fire hfire, flatMap_nil, append_nil] at hmem
    rcases mem_append.mp hmem with hnew | hold
    · exact permits_of_send hfire hnew
    · have hmem' : Frame.send call id start ∈ f :: others := mem_cons_of_mem f hold
      have hp := h call id start hmem'
      rcases records_of_fire hfire with hsame | ⟨t, herase⟩ | ⟨t, id', hwrites, hinsert⟩
      · unfold State.Permits
        rw [hsame]
        exact hp
      · exact hp.erase t _ herase
      · exact hp.insert (fun ht => hok t id' hwrites call id start
          (hperm.mem_iff.mpr hmem') ht) _ hinsert
  · intro es c' choice e _ h _ hout call id start hmem
    obtain ⟨hsame, -, -, hspawned⟩ := outside_eq_some hout
    unfold State.Permits
    rw [hsame]
    rcases mem_append.mp hmem with hold | hnew
    · exact h call id start hold
    · obtain ⟨c, hc⟩ := hspawned _ hnew
      cases hc

/-- At its request a call still has the session of the record, if there is one. -/
theorem permits_of_sent {p : Proxy} {events : List Event} {c₁ c₂ : Config State Unit Frame}
    {mv : Move Frame Choice} {c : Call} {session : ℤ}
    (hrun : Run p.machine Undisturbed ⟨{}, []⟩ events c₁)
    (hstep : Step p.machine c₁ mv (some (.sent c session)) c₂) :
    c₁.shared.Permits c.thread session := by
  rcases hstep.inversion with
    ⟨f, choice, others, threads, e, -, hfire, -, hsent, hperm, -⟩ |
      ⟨choice, e, -, hout, -, hsent, -⟩
  · obtain ⟨start, rfl⟩ := send_of_sent hfire hsent.symm
    exact permits_of_run hrun c session start (hperm.mem_iff.mpr mem_cons_self)
  · rw [(outside_eq_some hout).2.1] at hsent
    cases hsent

/-! ## A lock that was lost -/

/-- However others change the shared data between its steps, the call comes to its end, and
`ev` is the only event on the way. -/
inductive EndsWithOnly (p : Proxy) (ev : Event) : List Frame → Prop
  | last {f : Frame} (h : ∀ s choice, ∃ e, p.fire s choice f = some e ∧ e.next = [] ∧
      e.event = some ev) : EndsWithOnly p ev [f]
  | step {f : Frame} {stack : List Frame}
      (h : ∀ s choice, ∃ e, p.fire s choice f = some e ∧ e.event = none)
      (hnext : ∀ s choice e, p.fire s choice f = some e → EndsWithOnly p ev (e.next ++ stack)) :
      EndsWithOnly p ev (f :: stack)

theorem endsWithOnly_forget (p : Proxy) (c : Call) (session found : ℤ) :
    EndsWithOnly p (.threw c (p.lockOwnershipLost found)) [.forget c session found] := by
  have hdone : EndsWithOnly p (.threw c (p.lockOwnershipLost found))
      [.done c (.threw (p.lockOwnershipLost found))] :=
    EndsWithOnly.last fun s choice => ⟨_, rfl, rfl, rfl⟩
  refine EndsWithOnly.step (fun s choice => ⟨_, rfl, rfl⟩) fun s choice e h => ?_
  cases h
  cases c.op.acquires with
  | false => exact hdone
  | true =>
    refine EndsWithOnly.step (fun s choice => ⟨_, rfl, rfl⟩) fun s choice e h => ?_
    cases h
    exact hdone

theorem fire_verify_of_ne {p : Proxy} {s : State} {c : Call} {session found : ℤ}
    (hfound : s.lockedSessionIds.lookup c.thread = some found) (hne : found ≠ session)
    (choice : Choice) (start : ℤ) :
    p.fire s choice (.verify c session start) =
      some { shared := s, next := [.forget c session found] } := by
  simp only [fire, fireVerify, hfound, ne_eq, hne, not_false_eq_true, ↓reduceIte]

/-! ## The use count -/

/-- The locks that are acquired under a session, less those that are given up. -/
def Event.change (id : ℤ) : Event → ℤ
  | locked _ session _ => if session = id then 1 else 0
  | unlocked _ session => if session = id then -1 else 0
  | _ => 0

/-- The successful calls of `lock` and `try_lock` under a session, less those of `unlock`. -/
def locksHeld (events : List Event) (id : ℤ) : ℤ := (events.map (Event.change id)).sum

def Frame.inAdvance (id : ℤ) : Frame → ℤ
  | verify c i _ | forget c i _ | send c i _ | answer c i _ | invalidate c i =>
    if c.op.acquires ∧ i = id then 1 else 0
  | locked _ i _ | release i => if i = id then 1 else 0
  | _ => 0

/-- The calls of `lock` and `try_lock` that have acquired the session and are under way. -/
def underWay (frames : List Frame) (id : ℤ) : ℤ := (frames.map (Frame.inAdvance id)).sum

@[simp] theorem locksHeld_nil (id : ℤ) : locksHeld [] id = 0 := rfl

@[simp] theorem locksHeld_append (es es' : List Event) (id : ℤ) :
    locksHeld (es ++ es') id = locksHeld es id + locksHeld es' id := by
  simp [locksHeld]

@[simp] theorem locksHeld_singleton (ev : Event) (id : ℤ) : locksHeld [ev] id = ev.change id := by
  simp [locksHeld]

@[simp] theorem underWay_nil (id : ℤ) : underWay [] id = 0 := rfl

@[simp] theorem underWay_cons (f : Frame) (l : List Frame) (id : ℤ) :
    underWay (f :: l) id = f.inAdvance id + underWay l id := by
  simp [underWay]

@[simp] theorem underWay_append (l l' : List Frame) (id : ℤ) :
    underWay (l ++ l') id = underWay l id + underWay l' id := by
  simp [underWay]

def Frame.session? : Frame → Option ℤ
  | verify _ id _ | forget _ id _ | send _ id _ | answer _ id _ | locked _ id _ | unlocked _ id
  | release id | invalidate _ id => some id
  | _ => none

def sessions (frames : List Frame) : List ℤ := frames.filterMap Frame.session?

theorem inAdvance_eq_zero {f : Frame} {id : ℤ} (h : f.session? ≠ some id) : f.inAdvance id = 0 := by
  cases f <;> simp_all [Frame.session?, Frame.inAdvance]

/-- From `m` to `m'` the count of the session with the number `id` has changed by `d id`; a
new session starts with the count zero. -/
structure Shift (m m' : SessionManager) (d : ℤ → ℤ) : Prop where
  created : m.created ≤ m'.created
  session : ∀ st' ∈ m'.session,
    (∃ st ∈ m.session, st'.id = st.id ∧ st'.acquireCount = int32 (st.acquireCount + d st.id)) ∨
    (m.created ≤ st'.id ∧ st'.id < m'.created ∧ st'.acquireCount = int32 (d st'.id))

section Shift

variable {m m' : SessionManager} {d : ℤ → ℤ} {session : ℤ}

section

variable (hin : ∀ st ∈ m.session, int32 st.acquireCount = st.acquireCount)

include hin

theorem shift_unchanged (hd : ∀ id, d id = 0) : Shift m m d := by
  refine ⟨le_rfl, fun st hst => .inl ⟨st, hst, rfl, ?_⟩⟩
  rw [hd, add_zero, hin st hst]

theorem shift_release (hd : ∀ id, d id = if session = id then -1 else 0) :
    Shift m (m.releaseSession session 1) d := by
  unfold releaseSession
  cases hm : m.session with
  | none => exact ⟨le_rfl, fun st hst => by rw [hm] at hst; cases hst⟩
  | some st =>
    have hin' := hin st hm
    simp only
    split
    · rename_i hid
      refine ⟨le_rfl, fun st' hst' => .inl ⟨st, hm, ?_⟩⟩
      cases hst'
      rw [hd, if_pos hid.symm]
      exact ⟨rfl, rfl⟩
    · rename_i hid
      refine ⟨le_rfl, fun st' hst' => .inl ⟨st', hst', rfl, ?_⟩⟩
      rw [hm] at hst'
      cases hst'
      rw [hd, if_neg fun h => hid h.symm, add_zero, hin']

end

theorem shift_acquire {lookup : Lookup} (h : m.acquireSession lookup 1 = .ok (session, m'))
    (hd : ∀ id, d id = if session = id then 1 else 0) : Shift m m' d := by
  obtain ⟨-, ⟨st, hst, rfl, rfl⟩ | ⟨hle, hcreated, st, hst, hid, hcount⟩⟩ :=
    acquireSession_eq_ok h
  · refine ⟨le_rfl, fun st' hst' => .inl ⟨st, hst, ?_⟩⟩
    cases hst'
    rw [hd, if_pos rfl]
    exact ⟨rfl, rfl⟩
  · refine ⟨by omega, fun st' hst' => .inr ?_⟩
    rw [hst] at hst'
    cases hst'
    rw [hd, SessionState.acquire_id, hid, if_pos rfl]
    refine ⟨hle, by omega, ?_⟩
    simp [SessionState.acquire, hcount]

end Shift

section Count

variable {p : Proxy} {s : State} {choice : Choice} {f : Frame} {e : Effect State Unit Frame Event}
  {frames : List Frame} {session : ℤ}

theorem underWay_of_reaction {c : Call} (h : Reaction c session frames) (start id : ℤ) :
    underWay frames id = (Frame.answer c session start).inAdvance id := by
  cases h with
  | _ => simp_all [Frame.inAdvance]

/-- The count changes by what the step acquires in advance, or by the lock that it has
acquired or given up. -/
theorem shift_of_fire (hin : ∀ st ∈ s.manager.session, int32 st.acquireCount = st.acquireCount)
    (h : p.fire s choice f = some e) :
    Shift s.manager e.shared.manager fun id =>
      locksHeld e.event.toList id + underWay e.next id - f.inAdvance id := by
  cases fired_of_fire h with
  | acquired c start hop hacquired =>
    refine shift_acquire hacquired fun id => ?_
    simp [Frame.inAdvance, hop]
  | unlocked c session =>
    refine shift_release hin fun id => ?_
    simp [Frame.inAdvance, Event.change]
  | released session =>
    refine shift_release hin fun id => ?_
    by_cases hid : session = id <;> simp [Frame.inAdvance, hid]
  | invalidated c session =>
    refine ⟨le_rfl, fun st hst => ?_⟩
    cases hst
  | answered c session start hframes =>
    refine shift_unchanged hin fun id => ?_
    simp [underWay_of_reaction hframes start id]
  | forgot c session found =>
    refine shift_unchanged hin fun id => ?_
    cases hop : c.op.acquires <;> simp [Frame.inAdvance, hop]
  | found c start hop | unowned c session start hop =>
    refine shift_unchanged hin fun id => ?_
    simp [Frame.inAdvance, hop]
  | _ =>
    refine shift_unchanged hin fun id => ?_
    simp [Frame.inAdvance, Event.change]

theorem sessions_of_reaction {c : Call} (h : Reaction c session frames) :
    ∀ id ∈ sessions frames, id = session := by
  cases h <;> simp [sessions, Frame.session?]

theorem getSession_lt {m : SessionManager} (hsession : ∀ st ∈ m.session, st.id < m.created) :
    m.getSession < m.created := by
  unfold getSession
  cases hm : m.session with
  | none => exact Int.lt_of_lt_of_le (by decide) (Int.natCast_nonneg _)
  | some st => exact hsession st hm

theorem sessions_of_fire (hsession : ∀ st ∈ s.manager.session, st.id < s.manager.created)
    (h : p.fire s choice f = some e) :
    ∀ id ∈ sessions e.next, f.session? = some id ∨ id < e.shared.manager.created := by
  cases fired_of_fire h with
  | acquired c start hop hacquired =>
    intro id hid
    refine .inr ?_
    cases mem_singleton.mp hid
    obtain ⟨-, ⟨st, hst, rfl, rfl⟩ | ⟨-, hcreated, -⟩⟩ :=
      acquireSession_eq_ok hacquired
    · exact hsession st hst
    · exact hcreated ▸ Int.lt_succ _
  | found c start hop =>
    intro id hid
    cases mem_singleton.mp hid
    exact .inr (getSession_lt hsession)
  | answered c session start hframes =>
    intro id hid
    rw [sessions_of_reaction hframes id hid]
    exact .inl rfl
  | forgot c session found => cases hop : c.op.acquires <;> simp [sessions, Frame.session?]
  | _ => simp [sessions, Frame.session?]

theorem session_of_change (h : p.fire s choice f = some e) {id : ℤ}
    (hid : f.session? ≠ some id) : locksHeld e.event.toList id = 0 := by
  cases fired_of_fire h <;> simp_all [Frame.session?, Event.change]

end Count

/-- The use count is the number of locks held under the session and of calls under way; all
sessions that occur have been given by the server. -/
structure Counted (events : List Event) (s : State) (frames : List Frame) : Prop where
  count : ∀ st ∈ s.manager.session,
    st.acquireCount = int32 (locksHeld events st.id + underWay frames st.id)
  session : ∀ st ∈ s.manager.session, st.id < s.manager.created
  frames : ∀ id ∈ sessions frames, id < s.manager.created
  events : ∀ id : ℤ, s.manager.created ≤ id → locksHeld events id = 0

namespace Counted

variable {p : Proxy} {events : List Event} {s : State} {frames others : List Frame} {f : Frame}
  {choice : Choice} {e : Effect State Unit Frame Event}

section

variable (h : Counted events s frames)

include h

theorem perm {frames' : List Frame} (hperm : frames.Perm frames') : Counted events s frames' := by
  refine ⟨fun st hst => ?_, h.session, fun id hid => ?_, h.events⟩
  · rw [h.count st hst]
    unfold underWay
    rw [(hperm.map _).sum_eq]
  · exact h.frames id ((hperm.filterMap _).mem_iff.mpr hid)

theorem underWay_eq_zero {id : ℤ} (hnew : s.manager.created ≤ id) : underWay frames id = 0 := by
  refine sum_eq_zero fun x hx => ?_
  obtain ⟨f, hf, rfl⟩ := mem_map.mp hx
  refine inAdvance_eq_zero fun hid => ?_
  have hlt := h.frames id (mem_filterMap.mpr ⟨f, hf, hid⟩)
  omega

theorem outside (hout : p.machine.outside s choice = some e) :
    Counted (events ++ e.event.toList) e.shared (frames ++ e.spawnedFrames) := by
  obtain ⟨-, hevent, hmanager, hspawned⟩ := outside_eq_some hout
  have hnone : ∀ id, underWay e.spawnedFrames id = 0 := by
    intro id
    refine sum_eq_zero fun x hx => ?_
    obtain ⟨f, hf, rfl⟩ := mem_map.mp hx
    obtain ⟨c, rfl⟩ := hspawned f hf
    rfl
  have hsessions : sessions (frames ++ e.spawnedFrames) = sessions frames := by
    have hnil : e.spawnedFrames.filterMap Frame.session? = [] := by
      refine filterMap_eq_nil_iff.mpr fun f hf => ?_
      obtain ⟨c, rfl⟩ := hspawned f hf
      rfl
    rw [sessions, filterMap_append, hnil, append_nil, sessions]
  rw [hevent, Option.toList_none, append_nil]
  rcases hmanager with hsame | hdropped
  · refine ⟨fun st hst => ?_, ?_, ?_, ?_⟩
    · rw [hsame] at hst
      rw [underWay_append, hnone, add_zero]
      exact h.count st hst
    · rw [hsame]
      exact h.session
    · rw [hsame, hsessions]
      exact h.frames
    · rw [hsame]
      exact h.events
  · refine ⟨fun st hst => ?_, fun st hst => ?_, ?_, ?_⟩
    · rw [hdropped] at hst
      cases hst
    · rw [hdropped] at hst
      cases hst
    · rw [hdropped, hsessions]
      exact h.frames
    · rw [hdropped]
      exact h.events

end

theorem fire (h : Counted events s (f :: others)) (hfire : p.fire s choice f = some e) :
    Counted (events ++ e.event.toList) e.shared (e.next ++ others) := by
  have hin : ∀ st ∈ s.manager.session, int32 st.acquireCount = st.acquireCount := by
    intro st hst
    rw [h.count st hst]
    exact Int.bmod_bmod
  have hshift := shift_of_fire hin hfire
  have hcreated : (s.manager.created : ℤ) ≤ e.shared.manager.created :=
    Int.ofNat_le.mpr hshift.created
  refine ⟨fun st' hst' => ?_, fun st' hst' => ?_, fun id hid => ?_, fun id hnew => ?_⟩
  · rw [locksHeld_append, underWay_append]
    rcases hshift.session st' hst' with ⟨st, hst, hid, hcount⟩ | ⟨hnew, -, hcount⟩
    · rw [hcount, h.count st hst, int32_add_int32, hid, underWay_cons]
      congr 1
      ring
    · have hzero := h.underWay_eq_zero hnew
      rw [hcount, h.events _ hnew]
      rw [underWay_cons] at hzero
      congr 1
      omega
  · rcases hshift.session st' hst' with ⟨st, hst, hid, -⟩ | ⟨-, hlt, -⟩
    · rw [hid]
      exact lt_of_lt_of_le (h.session st hst) hcreated
    · exact hlt
  · rw [sessions, filterMap_append, mem_append] at hid
    rcases hid with hid | hid
    · rcases sessions_of_fire h.session hfire id hid with hf | hlt
      · exact lt_of_lt_of_le (h.frames id
          (mem_filterMap.mpr ⟨f, mem_cons_self, hf⟩)) hcreated
      · exact hlt
    · obtain ⟨g, hg, hgid⟩ := mem_filterMap.mp hid
      exact lt_of_lt_of_le (h.frames id
        (mem_filterMap.mpr ⟨g, mem_cons_of_mem f hg, hgid⟩)) hcreated
  · have hold := hcreated.trans hnew
    rw [locksHeld_append, h.events id hold, session_of_change hfire, add_zero]
    intro hf
    have hlt := h.frames id (mem_filterMap.mpr ⟨f, mem_cons_self, hf⟩)
    omega

end Counted

/-- In every state of every run the use count is what the locks and the calls amount to. -/
theorem counted_of_run {p : Proxy} {events : List Event} {c : Config State Unit Frame}
    (hrun : Run p.machine Always ⟨{}, []⟩ events c) : Counted events c.shared c.frames := by
  refine hrun.frameInvariant (P := Counted) (fun hperm h => h.perm hperm) ?_ ?_ ?_
  · refine ⟨fun st hst => ?_, fun st hst => ?_, fun id hid => ?_, fun id _ => rfl⟩
    · cases hst
    · cases hst
    · cases hid
  · intro es c₁ f choice others threads e _ _ h _ hfire
    rw [Effect.spawnedFrames, p.spawned_of_fire hfire, flatMap_nil, append_nil]
    exact h.fire hfire
  · intro es c₁ choice e _ h _ hout
    exact h.outside hout

/-- Unless a continuation interferes between the check and the request, a request is sent
under the session of the record. A call that finds another session in the record drops the
record and throws, and sends nothing. The use count of the session is the number of the locks
held under it, together with the calls that have acquired it and are under way. -/
theorem lock_keeps_to_session (p : Proxy) :
    (∀ events c₁ mv c session c₂, Run p.machine Undisturbed ⟨{}, []⟩ events c₁ →
      Step p.machine c₁ mv (some (.sent c session)) c₂ →
      c₁.shared.Permits c.thread session) ∧
    (∀ (s : State) choice c session start found,
      s.lockedSessionIds.lookup c.thread = some found → found ≠ session →
      p.fire s choice (.verify c session start) =
          some { shared := s, next := [.forget c session found] } ∧
        EndsWithOnly p (.threw c (p.lockOwnershipLost found)) [.forget c session found] ∧
        ∀ s' choice', ∃ e, p.fire s' choice' (.forget c session found) = some e ∧
          e.shared.lockedSessionIds.lookup c.thread = none) ∧
    (∀ events c₁, Run p.machine Always ⟨{}, []⟩ events c₁ → ∀ st ∈ c₁.shared.manager.session,
      st.acquireCount = int32 (locksHeld events st.id + underWay c₁.frames st.id)) := by
  refine ⟨fun events c₁ mv c session c₂ hrun hstep => permits_of_sent hrun hstep, ?_,
    fun events c₁ hrun => (counted_of_run hrun).count⟩
  intro s choice c session start found hfound hne
  refine ⟨fire_verify_of_ne hfound hne choice start, endsWithOnly_forget p c session found,
    fun s' choice' => ⟨_, rfl, ?_⟩⟩
  exact lookup_erase _ _

/-- Two calls of one thread, the first of which is answered after the session was replaced.
The answer comes between the check and the request of the second. -/
def racePicks : List (Pick Choice) :=
  [.outside (.call ⟨.lock, 1, 5, false⟩), .thread 0 (.lookup 0 ⟨0, .ok ⟨0, 60000, 0⟩⟩),
    .thread 0 .go, .thread 0 .go, .outside .heartbeatFailed,
    .outside (.call ⟨.lock, 1, 6, false⟩), .thread 1 (.lookup 0 ⟨0, .ok ⟨0, 60000, 0⟩⟩),
    .thread 1 .go, .thread 0 (.answer 0 (.fence 7)), .thread 0 .go]

/-- The first call alone: its request is sent under the session that it has acquired. -/
theorem lock_keeps_to_session_sent :
    ∃ events c₁ mv c₂, Run (machine ⟨"lock", "lock"⟩) Undisturbed ⟨{}, []⟩ events c₁ ∧
      Step (machine ⟨"lock", "lock"⟩) c₁ mv (some (.sent ⟨.lock, 1, 5, false⟩ 0)) c₂ ∧
      c₁.shared.Permits 1 0 := by
  have hexec : ∃ events c₁ mv c₂, (machine ⟨"lock", "lock"⟩).execAll (fun _ mv => match mv with
        | .frame f _ => f.writes.isNone
        | .outside _ => true) ⟨{}, []⟩ (racePicks.take 3) = some (events, c₁) ∧
      (machine ⟨"lock", "lock"⟩).exec c₁ (.thread 0 .go) =
        some (mv, some (.sent ⟨.lock, 1, 5, false⟩ 0), c₂) := ⟨_, _, _, _, rfl, rfl⟩
  obtain ⟨events, c₁, mv, c₂, hexec, hstep⟩ := hexec
  have hrun : Run (machine ⟨"lock", "lock"⟩) Undisturbed ⟨{}, []⟩ events c₁ := by
    refine (Run.of_execAll hexec).mono fun c mv hok => ?_
    cases mv with
    | frame f choice =>
      intro thread session hwrites
      simp [hwrites] at hok
    | outside choice => trivial
  have hsent := Step.of_exec hstep
  exact ⟨events, c₁, mv, c₂, hrun, hsent, (lock_keeps_to_session _).1 _ _ _ _ _ _ hrun hsent⟩

/-- The request of the second call is sent under a session other than that of the record,
and the session is in use although no lock is held under it. -/
theorem lock_sent_under_other_session :
    ∃ events c₁ mv c session c₂,
      Run (machine ⟨"lock", "lock"⟩) Always ⟨{}, []⟩ events c₁ ∧
      Step (machine ⟨"lock", "lock"⟩) c₁ mv (some (.sent c session)) c₂ ∧
      ¬ c₁.shared.Permits c.thread session ∧
      ∃ st ∈ c₁.shared.manager.session, st.acquireCount ≠ locksHeld events st.id := by
  have hexec : ∃ events c₁, (machine ⟨"lock", "lock"⟩).execAll (fun _ _ => true) ⟨{}, []⟩
      racePicks = some (events, c₁) ∧ (∃ mv c₂, (machine ⟨"lock", "lock"⟩).exec c₁
        (.thread 1 .go) = some (mv, some (.sent ⟨.lock, 1, 6, false⟩ 1), c₂)) ∧
      c₁.shared.lockedSessionIds.lookup 1 = some 0 ∧
      c₁.shared.manager.session = some ⟨1, 60000, 0, 1⟩ ∧ locksHeld events 1 = 0 :=
    ⟨_, _, rfl, ⟨_, _, rfl⟩, rfl, rfl, rfl⟩
  obtain ⟨events, c₁, hexec, ⟨mv, c₂, hstep⟩, hrecord, hsession, hheld⟩ := hexec
  refine ⟨events, c₁, mv, _, _, c₂, (Run.of_execAll hexec).always,
    Step.of_exec hstep, ?_, ⟨1, 60000, 0, 1⟩, hsession, ?_⟩
  · unfold State.Permits
    rw [hrecord]
    decide
  · rw [hheld]
    decide

end HazelcastClient.Cp.FencedLock
