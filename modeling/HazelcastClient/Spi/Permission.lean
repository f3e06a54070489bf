import HazelcastClient.Spi.Soundness

/-!
# The permission to notify

Between two calls of `set_send_connection` at most one notifier gets the
permission, because the compare-exchange leaves `send_connection_` empty
(`taken_run`). The id is checked before the compare-exchange and not together with
it; it is still the current one then, because a retry takes the connection before
it changes the id and publishes a new holder after it (`Claim.swap`).
-/

namespace HazelcastClient.Spi

open Interleaving List Option Event

/-- The permission has been granted and no connection has been stored since. -/
def Event.marks (i : InvId) (taken : Bool) : Event → Bool
  | .published j _ _ => taken && j != i
  | .granted j _ _ _ => taken || j == i
  | _ => taken

def taken (i : InvId) (events : List Event) : Bool := events.foldl (marks i) false

theorem taken_append (i : InvId) (events : List Event) (ev : Event) :
    taken i (events ++ [ev]) = ev.marks i (taken i events) := by
  simp [taken]

variable {i : InvId} {cause : Cause} {events : List Event}

theorem foldl_marks_true (h : ∀ a c, .published i a c ∉ events) :
    events.foldl (marks i) true = true := by
  induction events with
  | nil => rfl
  | cons ev events ih =>
    have hev : ev.marks i true = true := by
      cases ev with
      | published j a c =>
        have hj : j ≠ i := fun heq => h a c (heq ▸ mem_cons_self)
        simp [marks, hj]
      | _ => simp [marks]
    rw [foldl_cons, hev]
    exact ih fun a c hmem => h a c (mem_cons_of_mem _ hmem)

theorem taken_of_granted {k : CorrId} {a : ℕ} {before between : List Event}
    (h : ∀ a c, .published i a c ∉ between) :
    taken i (before ++ .granted i k a cause :: between) = true := by
  simp only [taken, foldl_append, foldl_cons]
  have hgranted : (granted i k a cause).marks i (before.foldl (marks i) false) = true := by
    simp [marks]
  rw [hgranted]
  exact foldl_marks_true h

section Fire

variable {s : Client} {threads : List ServiceThread} {choice : Choice} {e : ServiceEffect}
  {i : InvId} {k : CorrId}

theorem fire_cas {x : Holder} (hx : (s.invocation i).sendConnection = some x)
    (he : fire s threads choice (.permission i k cause (.cas x.address)) = some e) :
    e.shared = s.update i (fun v => { v with sendConnection := none }) ∧
      e.event = some (.granted i k x.address cause) := by
  simp only [fire, firePermission, hx, map_some, if_true, Option.some.injEq] at he
  subst he
  exact ⟨rfl, rfl⟩

theorem fire_publish {c : ConnId} (he : fire s threads choice (.launch i (.publish c k)) = some e) :
    e.shared = s.publish i c ∧ e.event = some (.published i s.nextAddress c) := by
  cases he
  exact ⟨rfl, rfl⟩

theorem marks_fire {f : Frame} (he : fire s threads choice f = some e)
    (ht : taken i (events ++ e.event.toList) = true) :
    (∃ k cause a, f = .permission i k cause (.cas a)) ∧
        (e.shared.invocation i).sendConnection = none ∨
      taken i events = true ∧
        (e.shared.invocation i).sendConnection = (s.invocation i).sendConnection := by
  rcases (Write.of_fire he).sendConnection i with
    hsame | ⟨c, k, rfl, -⟩ | ⟨k, cause, x, rfl, -, hnone⟩
  · cases hev : e.event with
    | none =>
      rw [hev, toList_none, append_nil] at ht
      exact .inr ⟨ht, hsame⟩
    | some ev =>
      rw [hev, toList_some, taken_append] at ht
      cases Emits.of_fire he hev with
      | published j c k => exact .inr ⟨(Bool.and_eq_true_iff.mp ht).1, hsame⟩
      | granted j k cause x hx =>
        by_cases hj : j = i
        · subst hj
          refine .inl ⟨⟨k, cause, x.address, rfl⟩, ?_⟩
          rw [(fire_cas hx he).1, Client.update_invocation_self]
        · exact .inr ⟨by simpa [marks, hj] using ht, hsame⟩
      | _ => exact .inr ⟨ht, hsame⟩
  · rw [(fire_publish he).2, toList_some, taken_append] at ht
    simp [marks] at ht
  · exact .inl ⟨⟨k, cause, x.address, rfl⟩, hnone⟩

end Fire

section Runs

variable {settings : Settings} {alive : List ConnId}
  {ok : ServiceConfig → Move Frame Choice → Prop} {events : List Event} {c : ServiceConfig}
  {i : InvId}

section

variable (h : Run service ok (start settings alive) events c)

include h

/-- After a grant `send_connection_` is empty until it is set again. -/
theorem taken_run (ht : taken i events = true) :
    i < c.shared.created ∧ (c.shared.invocation i).sendConnection = none := by
  refine h.frameInvariant (P := fun es s _ => taken i es = true →
    i < s.created ∧ (s.invocation i).sendConnection = none) (fun _ hp => hp) ?_ ?_ ?_ ht
  · simp [taken]
  · intro es c₁ f choice others threads e hrun hframes hp _ he ht
    have hcreated := (Write.of_fire he).created
    rcases marks_fire he ht with ⟨⟨k, cause, a, rfl⟩, hnone⟩ | ⟨hbefore, hsame⟩
    · have hs := (Sound.run hrun).perm hframes
      obtain ⟨hi, -⟩ := hs.fact (.notInitial i) (by simp)
      exact ⟨hcreated ▸ hi, hnone⟩
    · obtain ⟨hi, hnone⟩ := hp hbefore
      exact ⟨hcreated ▸ hi, hsame.trans hnone⟩
  · intro es c₁ choice e hrun hp _ he ht
    have ho := Outside.of_outside he
    have hbefore : taken i es = true := by
      cases hev : e.event with
      | none => simpa [hev] using ht
      | some ev =>
        rw [hev, toList_some, taken_append] at ht
        rcases ho.event ev hev with ⟨j, rfl⟩ | ⟨m, rfl, -⟩ <;> exact ht
    obtain ⟨hi, hnone⟩ := hp hbefore
    exact ⟨hi.trans_le ho.created, by rw [ho.invocation i hi]; exact hnone⟩

/-- Who gets the permission, and in which state. -/
theorem granted_inversion {k : CorrId} {a : ℕ} {mv : Move Frame Choice} {c' : ServiceConfig}
    (hs : Step service c mv (some (.granted i k a cause)) c') :
    c.shared.currentId i = k ∧
      ∃ x, (c.shared.invocation i).sendConnection = some x ∧ x.address = a := by
  rcases hs.inversion with ⟨f, choice, others, threads, e, -, he, -, hev, hframes, -⟩ |
    ⟨choice, e, -, he, -, hev, -⟩
  · cases Emits.of_fire he hev.symm with
    | granted i k cause x hx =>
      have hsound := (Sound.run h).perm hframes
      have hcur := hsound.claim (.swap i k x.address) (by simp)
      exact ⟨hcur x hx rfl, x, hx, rfl⟩
  · exact ((Outside.of_outside he).not_event hev.symm (by simp) (by simp)).elim

end

/-- Between two grants of the permission a connection has been stored, and at a
grant for the id `k` the current id is `k`. -/
theorem permission_exclusive (h : Run service ok (start settings alive) events c) :
    (∀ i k k' a a' cause cause' before between after,
      events = before ++ .granted i k a cause :: (between ++ .granted i k' a' cause' :: after) →
      ∃ b d, .published i b d ∈ between) ∧
    ∀ i k a cause mv c', Step service c mv (some (.granted i k a cause)) c' →
      c.shared.currentId i = k := by
  constructor
  · intro i k k' a a' cause cause' before between after hevents
    by_contra hno
    rw [hevents, ← cons_append, ← append_assoc] at h
    obtain ⟨c₁, mv, c₂, hbefore, -, hstep, -⟩ := h.split
    have htaken : taken i (before ++ .granted i k a cause :: between) = true :=
      taken_of_granted fun b d hmem => hno ⟨b, d, hmem⟩
    obtain ⟨-, x, hx, -⟩ := granted_inversion hbefore hstep
    rw [(taken_run hbefore htaken).2] at hx
    exact absurd hx (by simp)
  · intro i k a cause mv c' hs
    exact (granted_inversion h hs).1

end Runs

/-- The picks with which the thread `n` sends an invocation on the connection `d`. -/
def sendPicks (n : ℕ) (d : ConnId) : List (Pick Choice) :=
  .thread n (.candidates [d]) :: List.replicate 9 (.thread n .go)

/-- A request goes out, and the member answers. The notifier is the fourth thread,
after the sender and the two handlers of the socket. -/
def answeredPicks (r : Response) : List (Pick Choice) :=
  .outside (.invoke {}) :: sendPicks 0 7 ++
    [.thread 1 .go, .outside (.memberReads 7 0), .outside (.arrive (.response r)),
      .thread 3 .go, .thread 3 .go, .thread 3 .go]

def waitingPicks : List (Pick Choice) :=
  answeredPicks ⟨1, 1⟩ ++ List.replicate 6 (.thread 3 .go)

theorem permission_exclusive_answered :
    ∃ events c mv c', Run service Always (start {} [7]) events c ∧
      Step service c mv (some (.granted 0 1 1 (.response ⟨1, 0⟩))) c' ∧
      c.shared.currentId 0 = 1 := by
  have hexec : ∃ events c, service.execAll (fun _ _ => true) (start {} [7])
      (answeredPicks ⟨1, 0⟩) = some (events, c) ∧
      ∃ mv c', service.exec c (.thread 3 .go) =
        some (mv, some (.granted 0 1 1 (.response ⟨1, 0⟩)), c') := ⟨_, _, rfl, _, _, rfl⟩
  obtain ⟨events, c, hexec, mv, c', hstep⟩ := hexec
  have hrun := (Run.of_execAll hexec).always
  have hs := Step.of_exec hstep
  exact ⟨events, c, mv, c', hrun, hs, (permission_exclusive hrun).2 0 1 1 _ mv c' hs⟩

end HazelcastClient.Spi
