import HazelcastClient.Spi.Permission

/-!
# Invocations that wait for backup acks

An invocation with a pending response can only be completed by an ack or by the
sweep, and both find it through the map. `notify_connection_closed` collects
invocations first and erases their entries later; in between a response may take
the permission, and then the invocation waits outside the map
(`waiting_unregistered`). This is the only way: in runs in which no entry is erased
while a response of that attempt is under way, everyone who waits is registered.
-/

namespace HazelcastClient.Spi

open Interleaving List Sound Write

/-- `notify_connection_closed` does not erase the entry of an attempt whose response
is being looked at, is being handled, or is pending. -/
def SparesResponses (c : ServiceConfig) : Move Frame Choice → Prop
  | .frame (.closing _ (.deregister k i)) _ => c.shared.currentId i = k →
      (c.shared.invocation i).promise ≠ none ∨
        (c.shared.invocation i).pendingResponse = none ∧
          (∀ r pc, .responding i r pc ∉ c.frames) ∧
          ∀ r pc, .permission i k (.response r) pc ∉ c.frames
  | _ => True

/-- Responses lead from the map to the invocation as long as it may have to wait. -/
structure Waiting (s : Client) (frames : List Frame) : Prop where
  pending : ∀ i < s.created, (s.invocation i).pendingResponse ≠ none →
    (s.invocation i).promise = none → s.invocations (s.currentId i) = some i
  responding : ∀ i r pc, .responding i r pc ∈ frames → pc.owns = true →
    s.invocations (s.currentId i) = some i
  permission : ∀ i k r pc, .permission i k (.response r) pc ∈ frames → s.currentId i = k →
    published (s.invocation i) = 1 → s.invocations k = some i

namespace Waiting

variable {s : Client} {f : Frame} {others frames frames' : List Frame}
  {threads : List ServiceThread} {choice : Choice} {e : ServiceEffect} {i : InvId}

theorem perm (h : Waiting s frames) (hp : frames.Perm frames') : Waiting s frames' where
  pending := h.pending
  responding := fun i r pc hmem => h.responding i r pc (hp.mem_iff.mpr hmem)
  permission := fun i k r pc hmem => h.permission i k r pc (hp.mem_iff.mpr hmem)

/-- The entry of `i` is not erased by a closing connection. -/
def Spared (s : Client) (frames : List Frame) (f : Frame) : Prop :=
  ∀ c i, f = .closing c (.deregister (s.currentId i) i) →
    (s.invocation i).promise ≠ none ∨ (s.invocation i).pendingResponse = none ∧
      (∀ r pc, .responding i r pc ∉ frames) ∧
      ∀ r pc, .permission i (s.currentId i) (.response r) pc ∉ frames

section

variable (h : Waiting s (f :: others)) (hs : Sound s (f :: others)) (hok : Spared s (f :: others) f)
  (he : fire s threads choice f = some e) {r : Response}

include h hs hok he

theorem pending_fire (hi : i < s.created) (hp : (e.shared.invocation i).pendingResponse ≠ none)
    (hopen : (e.shared.invocation i).promise = none) :
    e.shared.invocations (e.shared.currentId i) = some i := by
  have hw := of_fire he
  have hopen₀ := hw.promise_eq_none hopen
  rcases hw.pendingResponse i with hsame | ⟨r, rfl, -⟩
  · rw [hsame] at hp
    have hd : drives i f = 0 :=
      hs.idle hi (.inr (resolved_of_pending hp)) f mem_cons_self
    rw [currentId_eq hw hd]
    rcases hs.registered_or hw hi hd hopen₀ (h.pending i hi hp hopen₀) with hreg | ⟨c, hf⟩
    · exact hreg
    · rcases hok c i hf with hset | ⟨hnone, -⟩
      · exact absurd hopen₀ hset
      · exact absurd hnone hp
  · rw [hw.invocations_eq (by simp) rfl, (hw.currentId i).resolve_right (by simp)]
    exact h.responding i r .storePending mem_cons_self rfl

theorem responding_fire {pc : Responding} (hmem : .responding i r pc ∈ e.frames ++ others)
    (howns : pc.owns = true) : e.shared.invocations (e.shared.currentId i) = some i := by
  have hw := of_fire he
  rcases mem_append.mp hmem with hnew | hold
  · cases Follows.of_fire he hnew with
    | responding _ _ pc₀ =>
      rw [hw.invocations_eq (by simp) rfl, (hw.currentId i).resolve_right (by simp)]
      cases hpc : pc₀.owns with
      | true => exact h.responding i r pc₀ mem_cons_self hpc
      | false =>
        -- after the recheck the response has been stored
        match pc₀, hpc with
        | .recheck, _ =>
          simp only [fire, fireResponding] at he
          split at he <;> cases he
          · exact absurd hnew not_mem_nil
          · cases mem_singleton.mp hnew
            cases howns
        | .complete true, _ =>
          cases he
          cases mem_singleton.mp hnew
    | granted _ k _ a =>
      rw [hw.invocations_eq (by simp) rfl, (hw.currentId i).resolve_right (by simp)]
      simp only [fire, firePermission] at he
      split at he <;> cases he
      · rename_i hmatch
        obtain ⟨x, hx, hxa⟩ := Option.map_eq_some_iff.mp hmatch
        obtain ⟨-, hni⟩ := hs.fact (.notInitial i) (by simp)
        have hcur : s.currentId i = k := hs.claim (.swap i k a) (by simp) x hx hxa
        rw [hcur]
        exact h.permission i k r _ mem_cons_self hcur (published_of_holder hni hx)
      · exact absurd hnew not_mem_nil
  · have hmem' := mem_cons_of_mem f hold
    -- the thread with the response drives the invocation, not the one that runs
    obtain ⟨hi, hd, hopen⟩ := hs.open_of_driven (i := i) hold (by simp [howns])
    rw [currentId_eq hw hd]
    rcases hs.registered_or hw hi hd hopen (h.responding i r pc hmem' howns) with hreg | ⟨c, hf⟩
    · exact hreg
    · rcases hok c i hf with hset | ⟨-, hnone, -⟩
      · exact absurd hopen hset
      · exact absurd hmem' (hnone r pc)

theorem permission_fire {k : CorrId} {pc : Permission}
    (hmem : .permission i k (.response r) pc ∈ e.frames ++ others) (hi : i < s.created)
    (hcur : e.shared.currentId i = k) (hpub : published (e.shared.invocation i) = 1) :
    e.shared.invocations k = some i := by
  have hw := of_fire he
  rcases hw.sendConnection i with hsame | ⟨d, l, rfl, hnew⟩ | ⟨l, cause, x, -, -, hnone⟩
  · have hpub₀ : published (s.invocation i) = 1 := by
      rw [published, ← hsame]
      exact hpub
    obtain ⟨hd, hopen⟩ := hs.open_of_published hi hpub₀
    rw [currentId_eq hw hd] at hcur
    subst hcur
    -- a response that has been found before, or that is being found now
    have hreg : s.invocations (s.currentId i) = some i := by
      rcases mem_append.mp hmem with hnew | hold
      · generalize hk : s.currentId i = k at hnew
        cases Follows.of_fire he hnew with
        | permission _ _ _ pc₀ => exact h.permission i k r pc₀ mem_cons_self hk hpub₀
        | response _ _ =>
          simp only [fire, fireProcess] at he
          split at he
          · cases he
            exact absurd hnew not_mem_nil
          · rename_i j hj
            cases he
            cases mem_singleton.mp hnew
            exact hj
      · exact h.permission i _ r pc (mem_cons_of_mem _ hold) rfl hpub₀
    rcases hs.registered_or hw hi hd hopen hreg with hreg | ⟨c, hf⟩
    · exact hreg
    · rcases hok c i hf with hset | ⟨-, -, hnone⟩
      · exact absurd hopen hset
      · rcases mem_append.mp hmem with hnew | hold
        · subst hf
          cases he
          cases mem_singleton.mp hnew
        · exact absurd (mem_cons_of_mem _ hold) (hnone r pc)
  · have hl : s.currentId i = l := hs.claim (.current i l) (by simp)
    have hreg : s.invocations l = some i := hs.claim (.registered l i) (by simp)
    rw [hnew, publish_currentId, hl] at hcur
    rw [hnew, ← hcur]
    exact hreg
  · rw [published, hnone] at hpub
    cases hpub

theorem fire :
    Waiting e.shared (e.frames ++ others) where
  pending := by
    intro i hi hp hopen
    rw [(of_fire he).created] at hi
    exact h.pending_fire hs hok he hi hp hopen
  responding := fun i r pc hmem howns => h.responding_fire hs hok he hmem howns
  permission := by
    intro i k r pc hmem hcur hpub
    have hafter := (hs.fire he).solid _ hmem (.owns i k) (by cases pc <;> simp)
    have hi := hafter.1
    rw [(of_fire he).created] at hi
    exact h.permission_fire hs hok he hmem hi hcur hpub

end

theorem outside (h : Waiting s frames) (hs : Sound s frames) (he : outside s choice = some e) :
    Waiting e.shared (frames ++ e.spawnedFrames) := by
  have ho := Outside.of_outside he
  refine ⟨?_, ?_, ?_⟩
  · intro i hi hp hopen
    by_cases hi₀ : i < s.created
    · rw [ho.invocation i hi₀] at hp hopen
      rw [ho.currentId hi₀, ho.invocations]
      exact h.pending i hi₀ hp hopen
    · obtain ⟨request, hnew⟩ := ho.new i hi (not_lt.mp hi₀)
      rw [hnew] at hp
      exact absurd rfl hp
  · intro i r pc hmem howns
    rcases mem_append.mp hmem with hold | hnew
    · have hi : i < s.created := created_of_drives (hs.solid _ hold) (by simp [howns])
      rw [ho.currentId hi, ho.invocations]
      exact h.responding i r pc hold howns
    · cases ho.enters _ hnew
  · intro i k r pc hmem hk hpub
    rcases mem_append.mp hmem with hold | hnew
    · have hi : i < s.created := (hs.solid _ hold (.owns i k) (by cases pc <;> simp)).1
      rw [ho.invocation i hi] at hpub
      rw [ho.invocations]
      exact h.permission i k r pc hold ((ho.currentId hi).symm.trans hk) hpub
    · cases ho.enters _ hnew

theorem initial (settings : Settings) (alive : List ConnId) :
    Waiting (start settings alive).shared (start settings alive).frames := by
  refine ⟨?_, ?_, ?_⟩ <;> simp [start, Config.frames]

theorem run {settings : Settings} {alive : List ConnId} {events : List Event} {c : ServiceConfig}
    (h : Run service SparesResponses (start settings alive) events c) :
    Waiting c.shared c.frames := by
  refine h.frameInvariant (P := fun _ s frames => Waiting s frames) (fun hp hw => hw.perm hp)
    (initial settings alive) ?_ fun hrun hw _ he => hw.outside (Sound.run hrun) he
  intro es c₁ f choice others threads e hrun hframes hw hok he
  refine hw.fire ((Sound.run hrun).perm hframes) ?_ he
  rintro d i rfl
  rcases hok rfl with hset | ⟨hpending, hresponding, hpermission⟩
  · exact .inl hset
  · refine .inr ⟨hpending, fun r pc hmem => ?_, fun r pc hmem => ?_⟩
    · exact hresponding r pc (hframes.mem_iff.mpr hmem)
    · exact hpermission r pc (hframes.mem_iff.mpr hmem)

end Waiting

/-- Who waits for backup acks is in the map under its current id. -/
theorem waiting_registered {settings : Settings} {alive : List ConnId} {events : List Event}
    {c : ServiceConfig} (h : Run service SparesResponses (start settings alive) events c) :
    ∀ i < c.shared.created, (c.shared.invocation i).pendingResponse ≠ none →
      (c.shared.invocation i).promise = none →
      c.shared.invocations (c.shared.currentId i) = some i :=
  (Waiting.run h).pending

/-- No connection is closed. -/
def neverCloses : Move Frame Choice → Bool
  | .frame (.closing _ _) _ => false
  | _ => true

theorem waiting_registered_answered :
    ∃ events c, Run service SparesResponses (start {} [7]) events c ∧
      (c.shared.invocation 0).pendingResponse = some ⟨1, 1⟩ ∧ c.shared.invocations 1 = some 0 := by
  have hexec : ∃ events c, service.execAll (fun _ mv => neverCloses mv) (start {} [7])
      waitingPicks = some (events, c) ∧ c.shared.created = 1 ∧ c.shared.currentId 0 = 1 ∧
      (c.shared.invocation 0).pendingResponse = some ⟨1, 1⟩ ∧
      (c.shared.invocation 0).promise = none := ⟨_, _, rfl, rfl, rfl, rfl, rfl⟩
  obtain ⟨events, c, hexec, hcreated, hcur, hpending, hopen⟩ := hexec
  have hrun : Run service SparesResponses (start {} [7]) events c := by
    refine (Run.of_execAll hexec).mono fun _ mv hmv => ?_
    cases mv with
    | outside _ => trivial
    | frame f _ =>
      cases f with
      | closing _ _ => cases hmv
      | _ => trivial
  have hreg := waiting_registered hrun 0 (hcreated ▸ Nat.one_pos) (by simp [hpending]) hopen
  rw [hcur] at hreg
  exact ⟨events, c, hrun, hpending, hreg⟩

/-- The response is queued when the connection is closed. The visit collects the
invocation; then the response takes the permission; then the entry is erased. -/
def overtakenPicks : List (Pick Choice) :=
  .outside (.invoke {}) :: sendPicks 0 7 ++
    [.thread 1 .go, .outside (.memberReads 7 0), .outside (.arrive (.response ⟨1, 1⟩)),
      .outside (.close 7), .thread 4 .go, .thread 4 .go, .thread 4 (.key 1), .thread 4 .go] ++
    List.replicate 4 (.thread 3 .go) ++ List.replicate 3 (.thread 4 .go) ++
    List.replicate 5 (.thread 3 .go)

theorem waiting_unregistered :
    ∃ events c, Run service Always (start {} [7]) events c ∧ 0 < c.shared.created ∧
      (c.shared.invocation 0).pendingResponse ≠ none ∧ (c.shared.invocation 0).promise = none ∧
      c.shared.invocations (c.shared.currentId 0) = none := by
  have hexec : ∃ events c, service.execAll (fun _ _ => true) (start {} [7]) overtakenPicks =
      some (events, c) ∧ c.shared.created = 1 ∧
      (c.shared.invocation 0).pendingResponse = some ⟨1, 1⟩ ∧
      (c.shared.invocation 0).promise = none ∧
      c.shared.invocations (c.shared.currentId 0) = none := ⟨_, _, rfl, rfl, rfl, rfl, rfl⟩
  obtain ⟨events, c, hexec, hcreated, hpending, hopen, hreg⟩ := hexec
  exact ⟨events, c, (Run.of_execAll hexec).always, hcreated ▸ Nat.one_pos,
    by simp [hpending], hopen, hreg⟩

end HazelcastClient.Spi
