import HazelcastClient.Spi.Permission

/-!
# Backup acks over several attempts

The counter of received acks lives in the invocation and a retry does not reset it,
while acks are addressed to the correlation id of one attempt. An ack that an
earlier attempt has counted makes the response of a later attempt complete too
early (`acks_carried_over`).

`Counted` relates the counter to the acks of the current id that have arrived. It
holds in runs in which a retry starts from an untouched counter, an ack is counted
only while its id is the current one, and no ack of an open attempt is dropped.
-/

namespace HazelcastClient.Spi

open Interleaving List Option Responding Client Sound Effect

open Write (of_fire)

/-- The number of acks for the id that have arrived. -/
def acksFor (k : CorrId) (events : List Event) : ℕ := events.count (.arrived (.backupAck k))

/-- An ack for the id that has arrived and has not been counted. -/
def inFlight (k : CorrId) : Frame → ℕ
  | .processResponse (.backupAck l) => if l = k then 1 else 0
  | .backup l _ .increment => if l = k then 1 else 0
  | _ => 0

/-- Acks are counted for the attempt they belong to: a retry starts with an
untouched counter, an ack is counted while its id is the current one, and it is
dropped only when its attempt is over. -/
def CountsOwnAcks (c : ServiceConfig) : Move Frame Choice → Prop
  | .frame (.failing i .execute) _ => (c.shared.invocation i).backupAcksReceived = 0
  | .frame (.backup k i .increment) _ => c.shared.currentId i = k
  | .frame (.processResponse (.backupAck k)) _ => c.shared.invocations k = none →
      ∀ i < c.shared.created, c.shared.currentId i = k →
        (c.shared.invocation i).promise ≠ none ∨ ∃ pc, .failing i pc ∈ c.frames
  | _ => True

def AckKnown (s : Client) : Frame → Prop
  | .responding i r .storePending => (s.invocation i).backupAcksExpected = r.numberOfBackups
  | .responding i r .recheck => (s.invocation i).pendingResponse = some r
  | .responding i r (.complete waited) => r.numberOfBackups ≤ (s.invocation i).backupAcksReceived ∧
      (waited = true → (s.invocation i).pendingResponse = some r)
  | .backup _ _ .increment => True
  | .backup k i pc => ((s.invocation i).promise = none →
        s.currentId i = k ∧ 1 ≤ (s.invocation i).backupAcksReceived) ∧
      match pc with
      | .readReceived expected => expected = (s.invocation i).backupAcksExpected
      | .readExpected received => received ≤ (s.invocation i).backupAcksReceived
      | .complete => (s.invocation i).backupAcksExpected ≤ (s.invocation i).backupAcksReceived
      | _ => True
  | _ => True

/-- The frame is going to complete the invocation `i`, once `n` acks are counted and
the response is pending. -/
def Hot (i : InvId) (n : ℤ) : Frame → Prop
  | .responding j _ .recheck => j = i
  | .responding j _ (.complete true) => j = i
  | .backup _ _ .increment => False
  | .backup _ j (.readExpected received) => j = i ∧ received = n
  | .backup _ j _ => j = i
  | _ => False

theorem hot_cases {i : InvId} {n : ℤ} {f : Frame} (h : Hot i n f) :
    (∃ r, f = .responding i r .recheck) ∨ (∃ r, f = .responding i r (.complete true)) ∨
      ∃ k pc, f = .backup k i pc ∧ pc ≠ .increment ∧
        ∀ received, pc = .readExpected received → received = n := by
  unfold Hot at h
  split at h
  · exact .inl ⟨_, by rw [h]⟩
  · exact .inr (.inl ⟨_, by rw [h]⟩)
  · exact h.elim
  · obtain ⟨rfl, rfl⟩ := h
    exact .inr (.inr ⟨_, _, rfl, by simp, by simp⟩)
  · rename_i pc hincrement hexpected
    refine .inr (.inr ⟨_, pc, by rw [h], hincrement, fun received hpc => ?_⟩)
    exact absurd hpc (hexpected received)
  · exact h.elim

structure Counted (events : List Event) (s : Client) (frames : List Frame) : Prop where
  arrived_lt : ∀ m, .arrived m ∈ events → m.requestId < s.nextCallId
  nonneg : ∀ i < s.created, 0 ≤ (s.invocation i).backupAcksReceived
  le : ∀ i < s.created, (s.invocation i).backupAcksReceived +
    (frames.map (inFlight (s.currentId i))).sum ≤ acksFor (s.currentId i) events
  ge : ∀ i < s.created, (s.invocation i).promise = none → (∀ pc, .failing i pc ∉ frames) →
    acksFor (s.currentId i) events ≤ (s.invocation i).backupAcksReceived +
      (frames.map (inFlight (s.currentId i))).sum
  pending : ∀ i < s.created, ∀ r, (s.invocation i).pendingResponse = some r →
    r.correlationId = s.currentId i ∧ (s.invocation i).backupAcksExpected = r.numberOfBackups
  known : ∀ f ∈ frames, AckKnown s f
  hot : ∀ i < s.created, ∀ r, (s.invocation i).pendingResponse = some r →
    (s.invocation i).promise = none → (s.invocation i).backupAcksReceived = r.numberOfBackups →
    ∃ f ∈ frames, Hot i r.numberOfBackups f

namespace Counted

variable {s : Client} {f : Frame} {others frames frames' : List Frame} {events : List Event}
  {threads : List ServiceThread} {choice : Choice} {e : ServiceEffect} {i : InvId}

theorem perm (h : Counted events s frames) (hp : frames.Perm frames') :
    Counted events s frames' := by
  obtain ⟨arrived_lt, nonneg, le, ge, pending, known, hot⟩ := h
  simp only [hp.mem_iff, sum_map_of_perm _ hp] at le ge known hot
  exact ⟨arrived_lt, nonneg, le, ge, pending, known, hot⟩

end Counted

/-! ## The acks in flight -/

section InFlight

variable {s : Client} {f : Frame} {events : List Event} {threads : List ServiceThread}
  {choice : Choice} {e : ServiceEffect}

theorem inFlight_cases (k : CorrId) (f : Frame) : inFlight k f = 0 ∨
    f = .processResponse (.backupAck k) ∨ ∃ i, f = .backup k i .increment := by
  unfold inFlight
  split
  · rename_i l
    by_cases hl : l = k
    · exact .inr (.inl (by rw [hl]))
    · exact .inl (if_neg hl)
  · rename_i l i
    by_cases hl : l = k
    · exact .inr (.inr ⟨i, by rw [hl]⟩)
    · exact .inl (if_neg hl)
  · exact .inl rfl

theorem inFlight_lookup {l : CorrId}
    (he : fire s threads choice (.processResponse (.backupAck l)) = some e) (k : CorrId) :
    (e.frames.map (inFlight k)).sum = 0 ∧ s.invocations l = none ∨
      (e.frames.map (inFlight k)).sum =
        inFlight k (.processResponse (.backupAck l)) := by
  simp only [fire, fireProcess, ServerMessage.requestId] at he
  split at he <;> cases he
  · exact .inl ⟨rfl, ‹_›⟩
  · exact .inr (by simp [spawnedFrames, inFlight])

section

variable (he : fire s threads choice f = some e) (k : CorrId)

include he

theorem acksFor_fire : acksFor k (events ++ e.event.toList) = acksFor k events := by
  cases hev : e.event with
  | none => simp
  | some ev =>
    have hne : ev ≠ .arrived (.backupAck k) := by
      rintro rfl
      cases Emits.of_fire he hev
    simp [acksFor, hne]

theorem inFlight_new (hf : ∀ l, f ≠ .processResponse (.backupAck l)) (k : CorrId) :
    (e.frames.map (inFlight k)).sum = 0 := by
  refine sum_eq_zero fun n hn => ?_
  obtain ⟨g, hg, rfl⟩ := mem_map.mp hn
  cases Follows.of_fire he hg with
  | backup l i pc pc' hpc => cases pc' <;> first | rfl | exact absurd rfl hpc
  | backupAck l i => exact absurd rfl (hf l)
  | _ => rfl

theorem inFlight_new_le : (e.frames.map (inFlight k)).sum ≤ inFlight k f := by
  by_cases hf : ∃ l, f = .processResponse (.backupAck l)
  · obtain ⟨l, rfl⟩ := hf
    rcases inFlight_lookup he k with ⟨hzero, -⟩ | heq
    · rw [hzero]
      exact Nat.zero_le _
    · exact heq.le
  · rw [inFlight_new he (fun l hl => hf ⟨l, hl⟩)]
    exact Nat.zero_le _

end

/-- Nobody has heard of an id that has not been given out. -/
theorem inFlight_fresh {frames : List Frame} (hs : Sound s frames) :
    (frames.map (inFlight s.nextCallId)).sum = 0 := by
  refine sum_eq_zero fun n hn => ?_
  obtain ⟨g, hg, rfl⟩ := mem_map.mp hn
  rcases inFlight_cases s.nextCallId g with hzero | rfl | ⟨i, rfl⟩
  · exact hzero
  · have hrec : s.nextCallId ∈ s.received :=
      hs.solid _ hg (.received s.nextCallId) (by simp [ServerMessage.requestId])
    exact absurd rfl (hs.base.received_lt _ hrec).ne
  · have ho : Owns s i s.nextCallId := hs.solid _ hg (.owns i s.nextCallId) (by simp)
    exact absurd rfl ho.2.1.ne

end InFlight

/-! ## One step -/

/-- `CountsOwnAcks` for the step of the frame `f`. -/
structure OwnAcks (s : Client) (frames : List Frame) (f : Frame) : Prop where
  execute : ∀ i, f = .failing i .execute → (s.invocation i).backupAcksReceived = 0
  increment : ∀ k i, f = .backup k i .increment → s.currentId i = k
  lookup : ∀ k, f = .processResponse (.backupAck k) → s.invocations k = none →
    ∀ i < s.created, s.currentId i = k →
      (s.invocation i).promise ≠ none ∨ ∃ pc, .failing i pc ∈ frames

namespace Counted

variable {s : Client} {f : Frame} {others frames : List Frame} {events : List Event}
  {threads : List ServiceThread} {choice : Choice} {e : ServiceEffect} {i : InvId} {s' : Client}
  {r : Response} {g : Frame}

/-- No ack has arrived for an id that has not been given out. -/
theorem acksFor_fresh (h : Counted events s frames) : acksFor s.nextCallId events = 0 := by
  rw [acksFor, count_eq_zero]
  exact fun hmem => (h.arrived_lt _ hmem).ne rfl

/-- A thread that handles an exception goes on until it retries or fails the
promise. -/
theorem failing_fire {pc : Failing} (he : fire s threads choice (.failing i pc) = some e) :
    pc = .execute ∨ (e.shared.invocation i).promise ≠ none ∨
      ∃ pc', .failing i pc' ∈ e.frames := by
  cases pc with
  | execute => exact .inl rfl
  | setPromise x =>
    cases he
    refine .inr (.inl ?_)
    rw [update_invocation_self]
    exact satisfy_promise_ne_none _ _
  | readId x | eraseKey x k | handle x | setReadId x | setErase x k =>
    cases he
    exact .inr (.inr ⟨_, mem_cons_self⟩)

theorem received_mono (hw : Write s f s') (i : InvId) :
    (s.invocation i).backupAcksReceived ≤ (s'.invocation i).backupAcksReceived := by
  rcases hw.backupAcksReceived i with hsame | ⟨k, -, hplus⟩
  · exact hsame.ge
  · rw [hplus]
    exact Int.le_add_one (le_refl _)

theorem expected_eq (hw : Write s f s') (hd : drives i f = 0) :
    (s'.invocation i).backupAcksExpected = (s.invocation i).backupAcksExpected := by
  refine (hw.backupAcksExpected i).resolve_right ?_
  rintro ⟨r, rfl, -⟩
  exact absurd hd (by simp [owns])

/-- A pending response stays, and with it the current id and the expected acks. -/
theorem pending_keep (hs : Sound s (f :: others)) (hw : Write s f s') (hi : i < s.created)
    (hp : (s.invocation i).pendingResponse = some r) :
    drives i f = 0 ∧ (s'.invocation i).pendingResponse = some r := by
  have hd : drives i f = 0 :=
    hs.idle hi (.inr (resolved_of_pending (by simp [hp]))) f mem_cons_self
  refine ⟨hd, ?_⟩
  rcases hw.pendingResponse i with hsame | ⟨r', rfl, -⟩
  · exact hsame.trans hp
  · exact absurd hd (by simp [owns])

section

variable (h : Counted events s (f :: others))

include h

section

variable (hs : Sound s (f :: others))

include hs

section

variable (hok : OwnAcks s (f :: others) f)

include hok

theorem le_fire (he : fire s threads choice f = some e) (hi : i < s.created) :
    (e.shared.invocation i).backupAcksReceived +
      ((e.frames ++ others).map (inFlight (e.shared.currentId i))).sum ≤
        acksFor (e.shared.currentId i) (events ++ e.event.toList) := by
  have hw := of_fire he
  rw [acksFor_fire he, map_append, sum_append]
  rcases hw.currentId i with hcur | ⟨rfl, hcur⟩
  · have hle := h.le i hi
    have hnew := inFlight_new_le he (s.currentId i)
    rw [map_cons, sum_cons] at hle
    rw [hcur]
    rcases hw.backupAcksReceived i with hsame | ⟨k, rfl, hplus⟩
    · rw [hsame]
      omega
    · have hk := hok.increment k i rfl
      have hzero := inFlight_new he (by simp) (s.currentId i)
      have hone : inFlight (s.currentId i) (.backup k i .increment) = 1 := by simp [inFlight, hk]
      rw [hplus]
      omega
  · have hfresh := inFlight_fresh hs
    have hzero := inFlight_new he (by simp) s.nextCallId
    have hsame := (hw.backupAcksReceived i).resolve_right (by simp)
    rw [map_cons, sum_cons] at hfresh
    rw [hcur, hsame, hok.execute i rfl]
    omega

theorem ge_fire (he : fire s threads choice f = some e) (hi : i < s.created)
    (hopen : (e.shared.invocation i).promise = none)
    (hfail : ∀ pc, .failing i pc ∉ e.frames ++ others) :
    acksFor (e.shared.currentId i) (events ++ e.event.toList) ≤
      (e.shared.invocation i).backupAcksReceived +
        ((e.frames ++ others).map (inFlight (e.shared.currentId i))).sum := by
  have hw := of_fire he
  have hopen₀ := hw.promise_eq_none hopen
  rw [acksFor_fire he, map_append, sum_append]
  rcases hw.currentId i with hcur | ⟨rfl, hcur⟩
  · have hbefore (pc : Failing) : .failing i pc ∉ f :: others := by
      intro hmem
      rcases mem_cons.mp hmem with rfl | hmem
      · rcases failing_fire he with rfl | hset | ⟨pc', hnext⟩
        · -- the retry gives out a fresh id
          have hlt : s.currentId i < s.nextCallId := hs.base.ids_lt i hi _
          have hnew : e.shared.currentId i = s.nextCallId := by
            cases he
            exact forceNext_currentId_self s i
          exact hlt.ne (hcur.symm.trans hnew)
        · exact hset hopen
        · exact hfail pc' (mem_append_left _ hnext)
      · exact hfail pc (mem_append_right _ hmem)
    have hge := h.ge i hi hopen₀ hbefore
    rw [map_cons, sum_cons] at hge
    rw [hcur]
    rcases hw.backupAcksReceived i with hsame | ⟨k, rfl, hplus⟩
    · have hkeep : inFlight (s.currentId i) f ≤
          (e.frames.map (inFlight (s.currentId i))).sum := by
        rcases inFlight_cases (s.currentId i) f with hzero | rfl | ⟨j, rfl⟩
        · rw [hzero]
          exact Nat.zero_le _
        · rcases inFlight_lookup he (s.currentId i) with ⟨-, hnone⟩ | heq
          · rcases hok.lookup _ rfl hnone i hi rfl with hset | ⟨pc, hmem⟩
            · exact absurd hopen₀ hset
            · exact absurd hmem (hbefore pc)
          · exact heq.ge
        · -- the ack belongs to `i` itself, and is counted
          have hj : j < s.created := (hs.fact (.owns j (s.currentId i)) (by simp)).1
          have hji := (hs.base.owns hi).eq_of_currentId hj (hok.increment _ j rfl)
          subst hji
          cases he
          simp at hsame
      rw [hsame]
      omega
    · have hk := hok.increment k i rfl
      have hone : inFlight (s.currentId i) (.backup k i .increment) = 1 := by simp [inFlight, hk]
      rw [hplus]
      omega
  · have hnn := h.nonneg i hi
    have hsame := (hw.backupAcksReceived i).resolve_right (by simp)
    rw [hcur, hsame, h.acksFor_fresh]
    omega

theorem known_other (hw : Write s f s') (hg : g ∈ others) : AckKnown s' g := by
  have hmem := mem_cons_of_mem f hg
  have hold := h.known g hmem
  have hsolid := hs.solid g hmem
  have hpending (i : InvId) (hi : .pending i ∈ facts g) :
      (s'.invocation i).backupAcksExpected = (s.invocation i).backupAcksExpected := by
    obtain ⟨hlt, hp⟩ := hsolid _ hi
    obtain ⟨r, hr⟩ := ne_none_iff_exists'.mp hp
    exact expected_eq hw (pending_keep hs hw hlt hr).1
  -- an ack that has been counted belongs to the current attempt
  have hcur {k : CorrId} {i : InvId} (hold : (s.invocation i).promise = none →
      s.currentId i = k ∧ 1 ≤ (s.invocation i).backupAcksReceived)
      (hopen : (s'.invocation i).promise = none) :
      s'.currentId i = k ∧ 1 ≤ (s'.invocation i).backupAcksReceived := by
    obtain ⟨hk, hone⟩ := hold (hw.promise_eq_none hopen)
    refine ⟨?_, hone.trans (received_mono hw i)⟩
    rcases hw.currentId i with hsame | ⟨rfl, -⟩
    · exact hsame.trans hk
    · rw [hok.execute i rfl] at hone
      exact absurd hone (by simp)
  cases g with
  | responding i r pc =>
    cases pc with
    | storePending =>
      have hd := (hs.open_of_driven (i := i) hg (by simp [owns])).2.1
      exact (expected_eq hw hd).trans hold
    | recheck =>
      have hi : i < s.created := hsolid (.created i) (by simp [owns])
      exact (pending_keep hs hw hi hold).2
    | complete waited =>
      refine ⟨hold.1.trans (received_mono hw i), fun hwaited => ?_⟩
      have hi : i < s.created :=
        hsolid (.created i) (by subst hwaited; simp [owns])
      exact (pending_keep hs hw hi (hold.2 hwaited)).2
    | _ => trivial
  | backup k i pc =>
    cases pc with
    | increment => trivial
    | loadPending | readAcks => exact ⟨hcur hold.1, trivial⟩
    | readReceived x =>
      exact ⟨hcur hold.1, hold.2.trans (hpending i (by simp)).symm⟩
    | readExpected x => exact ⟨hcur hold.1, hold.2.trans (received_mono hw i)⟩
    | complete =>
      refine ⟨hcur hold.1, ?_⟩
      rw [hpending i (by simp)]
      exact hold.2.trans (received_mono hw i)
  | _ => trivial

end

theorem pending_fire (he : fire s threads choice f = some e) (hi : i < s.created)
    (hp : (e.shared.invocation i).pendingResponse = some r) :
    r.correlationId = e.shared.currentId i ∧
      (e.shared.invocation i).backupAcksExpected = r.numberOfBackups := by
  have hw := of_fire he
  rcases hw.pendingResponse i with hsame | ⟨r', rfl, hnew⟩
  · rw [hsame] at hp
    obtain ⟨hd, -⟩ := pending_keep hs hw hi hp
    rw [currentId_eq hw hd, expected_eq hw hd]
    exact h.pending i hi r hp
  · have hr : r' = r := some.inj (hnew.symm.trans hp)
    subst hr
    have hcur : s.currentId i = r'.correlationId :=
      hs.claim (.current i r'.correlationId) (by simp [owns])
    have hexp := h.known _ mem_cons_self
    rw [(hw.currentId i).resolve_right (by simp), (hw.backupAcksExpected i).resolve_right (by simp)]
    exact ⟨hcur.symm, hexp⟩

end

end

theorem known_responding {pc : Responding} (h : Counted events s (.responding i r pc :: others))
    (he : fireResponding s i r pc = some e) (hg : g ∈ e.frames) :
    AckKnown e.shared g := by
  have hold := h.known _ mem_cons_self
  cases pc with
  | compare =>
    simp only [fireResponding] at he
    split at he <;> cases he <;> cases mem_singleton.mp hg
    · trivial
    · rename_i hn
      exact ⟨not_lt.mp hn, by simp⟩
  | storeTime | complete waited =>
    cases he
    cases mem_singleton.mp hg
    trivial
  | storeExpected | storePending =>
    cases he
    cases mem_singleton.mp hg
    simp [AckKnown]
  | recheck =>
    simp only [fireResponding] at he
    split at he <;> cases he
    · exact absurd hg not_mem_nil
    · rename_i hn
      cases mem_singleton.mp hg
      exact ⟨(not_not.mp hn).ge, fun _ => hold⟩

theorem known_backup {k : CorrId} {pc : Backup} (h : Counted events s (.backup k i pc :: others))
    (hs : Sound s (.backup k i pc :: others))
    (hok : OwnAcks s (.backup k i pc :: others) (.backup k i pc))
    (he : fireBackup s choice k i pc = some e) (hg : g ∈ e.frames) :
    AckKnown e.shared g := by
  have hold := h.known _ mem_cons_self
  revert he
  fun_cases fireBackup s choice k i pc
  case case11 =>
    intro he
    obtain ⟨r, -, rfl⟩ := map_eq_some_iff.mp he
    cases mem_singleton.mp hg
    trivial
  all_goals rintro ⟨⟩
  case case2 | case7 | case9 => exact absurd hg not_mem_nil
  all_goals cases mem_singleton.mp hg
  · have hk := hok.increment k i rfl
    have hnn := h.nonneg i (hs.fact (.owns i k) (by simp)).1
    refine ⟨fun _ => ⟨?_, ?_⟩, trivial⟩
    · simpa [currentId, Invocation.correlationId] using hk
    · rw [update_invocation_self]
      exact Int.le_add_of_nonneg_left hnn
  · exact hold
  · exact ⟨hold.1, rfl⟩
  · exact ⟨hold.1, le_refl _⟩
  · rename_i hx
    exact ⟨hold.1, (hold.2.symm.trans (not_not.mp hx)).le⟩
  · rename_i hx
    exact ⟨hold.1, (not_not.mp hx).le.trans hold.2⟩

section

variable (h : Counted events s (f :: others))

include h

theorem known_next (hs : Sound s (f :: others)) (hok : OwnAcks s (f :: others) f)
    (he : fire s threads choice f = some e) (hg : g ∈ e.frames) :
    AckKnown e.shared g := by
  cases Follows.of_fire he hg with
  | responding i r pc => exact known_responding h he hg
  | backup k i pc => exact known_backup h hs hok he hg
  | _ => trivial

/-- The thread that is going to complete the invocation does so, or is followed by
one that will. -/
theorem hot_next (he : fire s threads choice f = some e) (hi : i < s.created)
    (hp : (s.invocation i).pendingResponse = some r)
    (hn : (s.invocation i).backupAcksReceived = r.numberOfBackups)
    (hopen : (e.shared.invocation i).promise = none) (hf : Hot i r.numberOfBackups f) :
    ∃ g ∈ e.frames, Hot i r.numberOfBackups g := by
  have hexp := (h.pending i hi r hp).2
  have hknown := h.known f mem_cons_self
  rcases hot_cases hf with ⟨r', rfl⟩ | ⟨r', rfl⟩ | ⟨k, pc, rfl, hpc, hx⟩
  · have hr : r' = r := some.inj (hknown.symm.trans hp)
    subst hr
    simp only [fire, fireResponding, hn, ne_eq, not_true_eq_false, if_false,
      some.injEq] at he
    subst he
    exact ⟨_, mem_cons_self, rfl⟩
  · cases he
    rw [setValue, update_invocation_self] at hopen
    exact absurd hopen (satisfy_promise_ne_none _ _)
  · cases pc with
    | increment => exact absurd rfl hpc
    | loadPending =>
      simp only [fire, fireBackup, hp, some.injEq] at he
      subst he
      exact ⟨_, mem_cons_self, rfl⟩
    | readAcks =>
      simp only [fire, fireBackup] at he
      split at he <;> cases he
      · exact ⟨_, mem_cons_self, rfl⟩
      · exact ⟨_, mem_cons_self, rfl, hn⟩
    | readReceived x =>
      have hx : x = (s.invocation i).backupAcksReceived := by rw [hknown.2, hexp, hn]
      simp only [fire, fireBackup, hx, ne_eq, not_true_eq_false, if_false,
        some.injEq] at he
      subst he
      exact ⟨_, mem_cons_self, rfl⟩
    | readExpected x =>
      cases hx x rfl
      simp only [fire, fireBackup, hexp, ne_eq, not_true_eq_false, if_false,
        some.injEq] at he
      subst he
      exact ⟨_, mem_cons_self, rfl⟩
    | complete =>
      simp only [fire, fireBackup, hp, map_some, some.injEq] at he
      subst he
      rw [setValue, update_invocation_self] at hopen
      exact absurd hopen (satisfy_promise_ne_none _ _)

theorem hot_fire (he : fire s threads choice f = some e) (hi : i < s.created)
    (hp : (e.shared.invocation i).pendingResponse = some r)
    (hopen : (e.shared.invocation i).promise = none)
    (hn : (e.shared.invocation i).backupAcksReceived = r.numberOfBackups) :
    ∃ g ∈ e.frames ++ others, Hot i r.numberOfBackups g := by
  have hw := of_fire he
  have hopen₀ := hw.promise_eq_none hopen
  rcases hw.pendingResponse i with hsame | ⟨r', rfl, -⟩
  · rcases hw.backupAcksReceived i with hrec | ⟨k, rfl, -⟩
    · rw [hsame] at hp
      rw [hrec] at hn
      obtain ⟨g, hg, hh⟩ := h.hot i hi r hp hopen₀ hn
      rcases mem_cons.mp hg with rfl | hg
      · obtain ⟨g', hg', hh'⟩ := h.hot_next he hi hp hn hopen hh
        exact ⟨g', mem_append_left _ hg', hh'⟩
      · exact ⟨g, mem_append_right _ hg, hh⟩
    · cases he
      exact ⟨_, mem_cons_self, rfl⟩
  · cases he
    exact ⟨_, mem_cons_self, rfl⟩

theorem fire (hs : Sound s (f :: others)) (hok : OwnAcks s (f :: others) f)
    (he : fire s threads choice f = some e) :
    Counted (events ++ e.event.toList) e.shared (e.frames ++ others) := by
  have hw := of_fire he
  refine ⟨?_, ?_, ?_, ?_, ?_, ?_, ?_⟩
  · intro m hm
    rcases mem_append.mp hm with hm | hm
    · exact (h.arrived_lt m hm).trans_le hw.nextCallId_le
    · have hev : e.event = some (.arrived m) := by simpa using hm
      cases Emits.of_fire he hev
  · intro i hi
    exact (h.nonneg i (hw.created ▸ hi)).trans (received_mono hw i)
  · intro i hi
    exact h.le_fire hs hok he (hw.created ▸ hi)
  · intro i hi hopen hfail
    exact h.ge_fire hs hok he (hw.created ▸ hi) hopen hfail
  · intro i hi r hp
    exact h.pending_fire hs he (hw.created ▸ hi) hp
  · intro g hg
    rcases mem_append.mp hg with hg | hg
    · exact h.known_next hs hok he hg
    · exact h.known_other hs hok hw hg
  · intro i hi r hp hopen hn
    exact h.hot_fire he (hw.created ▸ hi) hp hopen hn

end

/-! ## The environment and runs -/

theorem acksFor_outside (he : Spi.outside s choice = some e) (k : CorrId) :
    acksFor k (events ++ e.event.toList) =
      acksFor k events + (e.spawnedFrames.map (inFlight k)).sum := by
  revert he
  fun_cases Spi.outside s choice
  case case2 =>
    intro he
    obtain ⟨entry, -, rfl⟩ := map_eq_some_iff.mp he
    simp [spawnedFrames]
  all_goals rintro ⟨⟩
  case case4 m _ =>
    cases m with
    | response r | error l x => simp [acksFor, spawnedFrames, inFlight]
    | backupAck l => simp [acksFor, spawnedFrames, inFlight, count_cons]
  all_goals simp [acksFor, spawnedFrames, inFlight]

/-- The invocation whose counters a frame of `notify_response` or `notify_backup`
reads exists. -/
theorem known_congr (hk : AckKnown s g) (hsolid : Solid s g)
    (hinv : ∀ i < s.created, s'.invocation i = s.invocation i) : AckKnown s' g := by
  cases g with
  | responding i r pc =>
    have hi : i < s.created :=
      hsolid (.created i) (by cases hpc : pc.owns <;> simp [hpc])
    cases pc <;> first | trivial | simpa [AckKnown, hinv i hi] using hk
  | backup k i pc =>
    have hi : i < s.created := by
      cases pc with
      | increment => exact (hsolid (.owns i k) (by simp)).1
      | loadPending => exact hsolid (.created i) (by simp)
      | _ => exact (hsolid (.pending i) (by simp)).1
    cases pc <;> first | trivial | simpa [AckKnown, hinv i hi, currentId] using hk
  | _ => trivial

theorem outside (h : Counted events s frames) (hs : Sound s frames)
    (he : Spi.outside s choice = some e) :
    Counted (events ++ e.event.toList) e.shared (frames ++ e.spawnedFrames) := by
  have ho := Outside.of_outside he
  -- a new invocation starts with a fresh id and an untouched counter
  have hnew {i : InvId} (hi : i < e.shared.created) (hge : ¬ i < s.created) :
      e.shared.currentId i = s.nextCallId ∧ (e.shared.invocation i).backupAcksReceived = 0 ∧
        (e.shared.invocation i).pendingResponse = none := by
    obtain ⟨request, hinv⟩ := ho.new i hi (not_lt.mp hge)
    rw [currentId, hinv]
    exact ⟨rfl, rfl, rfl⟩
  refine ⟨?_, ?_, ?_, ?_, ?_, ?_, ?_⟩
  · intro m hm
    rcases mem_append.mp hm with hm | hm
    · exact (h.arrived_lt m hm).trans_le ho.nextCallId
    · have hev : e.event = some (.arrived m) := by simpa using hm
      rcases ho.event _ hev with ⟨i, hi⟩ | ⟨m', hm', hrec⟩
      · cases hi
      · cases hm'
        exact (hs.base.received_lt _ hrec).trans_le ho.nextCallId
  · intro i hi
    by_cases hi₀ : i < s.created
    · rw [ho.invocation i hi₀]
      exact h.nonneg i hi₀
    · rw [(hnew hi hi₀).2.1]
  · intro i hi
    rw [acksFor_outside he, map_append, sum_append]
    by_cases hi₀ : i < s.created
    · have hle := h.le i hi₀
      rw [ho.currentId hi₀, ho.invocation i hi₀]
      omega
    · obtain ⟨hid, hrec, -⟩ := hnew hi hi₀
      rw [hid, hrec, inFlight_fresh hs]
      omega
  · intro i hi hopen hfail
    rw [acksFor_outside he, map_append, sum_append]
    by_cases hi₀ : i < s.created
    · rw [ho.invocation i hi₀] at hopen
      have hge := h.ge i hi₀ hopen fun pc hmem => hfail pc (mem_append_left _ hmem)
      rw [ho.currentId hi₀, ho.invocation i hi₀]
      omega
    · obtain ⟨hid, hrec, -⟩ := hnew hi hi₀
      rw [hid, hrec, h.acksFor_fresh]
      omega
  · intro i hi r hp
    by_cases hi₀ : i < s.created
    · rw [ho.invocation i hi₀] at hp
      rw [ho.currentId hi₀, ho.invocation i hi₀]
      exact h.pending i hi₀ r hp
    · rw [(hnew hi hi₀).2.2] at hp
      cases hp
  · intro g hg
    rcases mem_append.mp hg with hg | hg
    · exact known_congr (h.known g hg) (hs.solid g hg) ho.invocation
    · cases ho.enters g hg <;> trivial
  · intro i hi r hp hopen hn
    by_cases hi₀ : i < s.created
    · rw [ho.invocation i hi₀] at hp hopen hn
      obtain ⟨f, hf, hh⟩ := h.hot i hi₀ r hp hopen hn
      exact ⟨f, mem_append_left _ hf, hh⟩
    · rw [(hnew hi hi₀).2.2] at hp
      cases hp

theorem initial (settings : Settings) (alive : List ConnId) :
    Counted [] (start settings alive).shared (start settings alive).frames := by
  refine ⟨?_, ?_, ?_, ?_, ?_, ?_, ?_⟩ <;> simp [start, Config.frames]

theorem run {settings : Settings} {alive : List ConnId} {c : ServiceConfig}
    (h : Run service CountsOwnAcks (start settings alive) events c) :
    Counted events c.shared c.frames := by
  refine h.frameInvariant (P := Counted) (fun hp hc => hc.perm hp) (initial settings alive) ?_
    fun hrun hc _ he => hc.outside (Sound.run hrun) he
  intro es c₁ f choice others threads e hrun hframes hc hok he
  refine hc.fire ((Sound.run hrun).perm hframes) ⟨?_, ?_, ?_⟩ he
  · rintro i rfl
    exact hok
  · rintro k i rfl
    exact hok
  · rintro k rfl hnone i hi hk
    rcases hok hnone i hi hk with hset | ⟨pc, hmem⟩
    · exact .inl hset
    · exact .inr ⟨pc, hframes.mem_iff.mp hmem⟩

/-- Whoever completes an open invocation has seen all acks counted. -/
theorem le_of_completed (h : Counted events s (f :: others)) (hs : Sound s (f :: others))
    (he : Emits s f (.completed i r)) :
    r.numberOfBackups ≤ acksFor r.correlationId events := by
  have hknown := h.known f mem_cons_self
  have hsolid := hs.solid f mem_cons_self
  have hbound (hi : i < s.created) (hid : r.correlationId = s.currentId i)
      (hn : r.numberOfBackups ≤ (s.invocation i).backupAcksReceived) :
      r.numberOfBackups ≤ acksFor r.correlationId events := by
    have hle := h.le i hi
    rw [hid]
    omega
  cases he with
  | completed i r waited =>
    have hi : i < s.created :=
      hsolid (.created i) (by cases waited <;> simp [owns])
    refine hbound hi ?_ hknown.1
    cases waited with
    | false =>
      exact (hs.claim (.current i r.correlationId) (by simp [owns])).symm
    | true => exact (h.pending i hi r (hknown.2 rfl)).1
  | completedBackup k i r hp =>
    have hi : i < s.created := (hsolid (.pending i) (by simp)).1
    obtain ⟨hid, hexp⟩ := h.pending i hi r hp
    exact hbound hi hid (hexp ▸ hknown.2)

/-- An open invocation with a pending response and all its acks has a thread that is
going to complete it. -/
theorem settled_of_pending (h : Counted events s frames) (hs : Sound s frames)
    (hi : i < s.created) (hp : (s.invocation i).pendingResponse = some r)
    (hopen : (s.invocation i).promise = none)
    (hall : (acksFor (s.currentId i) events : ℤ) = r.numberOfBackups)
    (hresponding : ∀ pc, .responding i r pc ∉ frames)
    (hprocess : .processResponse (.backupAck (s.currentId i)) ∉ frames)
    (hbackup : ∀ pc, .backup (s.currentId i) i pc ∉ frames) : False := by
  have hidle := hs.idle hi (.inr (resolved_of_pending (by simp [hp])))
  have hzero : (frames.map (inFlight (s.currentId i))).sum = 0 := by
    refine sum_eq_zero fun n hn => ?_
    obtain ⟨g, hg, rfl⟩ := mem_map.mp hn
    rcases inFlight_cases (s.currentId i) g with hzero | rfl | ⟨j, rfl⟩
    · exact hzero
    · exact absurd hg hprocess
    · have ho : Owns s j (s.currentId i) := hs.solid _ hg (.owns j _) (by simp)
      have hij := ho.eq_of_currentId hi rfl
      exact absurd hg (hij ▸ hbackup .increment)
  have hcount : (s.invocation i).backupAcksReceived = r.numberOfBackups := by
    have hle := h.le i hi
    have hge := h.ge i hi hopen fun pc hmem => absurd (hidle _ hmem) (by simp)
    omega
  obtain ⟨g, hg, hh⟩ := h.hot i hi r hp hopen hcount
  have hknown := h.known g hg
  rcases hot_cases hh with ⟨r', rfl⟩ | ⟨r', rfl⟩ | ⟨k, pc, rfl, hpc, -⟩
  · have hr : r' = r := some.inj (hknown.symm.trans hp)
    exact hresponding _ (hr ▸ hg)
  · have hr : r' = r := some.inj ((hknown.2 rfl).symm.trans hp)
    exact hresponding _ (hr ▸ hg)
  · -- a counted ack of `i` is one of the current id
    have hk : s.currentId i = k := by
      cases pc with
      | increment => exact absurd rfl hpc
      | _ => exact (hknown.1 hopen).1
    exact hbackup pc (hk ▸ hg)

end Counted

/-! ## Accepted responses -/

theorem responding_next {s : Client} {i : InvId} {r : Response} {pc : Responding}
    {e : ServiceEffect} (he : fireResponding s i r pc = some e) (howns : pc.owns = true) :
    (e.shared.invocation i).promise ≠ none ∨
      (∃ pc', pc'.owns = true ∧ .responding i r pc' ∈ e.frames) ∨
      (e.shared.invocation i).pendingResponse = some r := by
  revert he
  fun_cases fireResponding s i r pc <;> rintro ⟨⟩
  case case5 => exact .inr (.inr (by simp))
  case case6 | case7 => cases howns
  case case8 =>
    refine .inl ?_
    rw [setValue, update_invocation_self]
    exact satisfy_promise_ne_none _ _
  all_goals exact .inr (.inl ⟨_, rfl, mem_cons_self⟩)

section Runs

variable {settings : Settings} {alive : List ConnId}
  {ok : ServiceConfig → Move Frame Choice → Prop} {events : List Event} {c : ServiceConfig}

/-- A response that has got the permission is being handled, is pending, or the
invocation is complete. -/
theorem accepted_run (h : Run service ok (start settings alive) events c) {i : InvId}
    {k : CorrId} {a : ℕ} {r : Response} (hmem : .granted i k a (.response r) ∈ events) :
    i < c.shared.created ∧ ((c.shared.invocation i).promise ≠ none ∨
      c.shared.currentId i = k ∧ ((∃ pc, pc.owns = true ∧ .responding i r pc ∈ c.frames) ∨
        (c.shared.invocation i).pendingResponse = some r)) := by
  refine h.frameInvariant (P := fun es s frames => .granted i k a (.response r) ∈ es →
    i < s.created ∧ ((s.invocation i).promise ≠ none ∨
      s.currentId i = k ∧ ((∃ pc, pc.owns = true ∧ .responding i r pc ∈ frames) ∨
        (s.invocation i).pendingResponse = some r))) ?_ (by simp) ?_ ?_ hmem
  · intro es s l l' hp hinv hmem
    refine ⟨(hinv hmem).1, (hinv hmem).2.imp_right fun hk => ⟨hk.1, hk.2.imp_left ?_⟩⟩
    rintro ⟨pc, howns, hpc⟩
    exact ⟨pc, howns, hp.mem_iff.mp hpc⟩
  · intro es c₁ f choice others threads e hrun hframes hinv _ he hmem
    change Spi.fire c₁.shared threads choice f = some e at he
    have hs := (run hrun).perm hframes
    have hw := of_fire he
    rcases mem_append.mp hmem with hmem | hmem
    · obtain ⟨hi, hcases⟩ := hinv hmem
      refine ⟨hw.created ▸ hi, ?_⟩
      rcases hcases with hset | ⟨hk, ⟨pc, howns, hpc⟩ | hp⟩
      · exact .inl (hw.promise_ne_none hset)
      · rcases mem_cons.mp hpc with rfl | hpc
        · rw [(hw.currentId i).resolve_right (by simp)]
          rcases responding_next he howns with hset | ⟨pc', howns', hnext⟩ | hp
          · exact .inl hset
          · exact .inr ⟨hk, .inl ⟨pc', howns', mem_append_left _ hnext⟩⟩
          · exact .inr ⟨hk, .inr hp⟩
        · have hd := (hs.open_of_driven (i := i) hpc (by simp [howns])).2.1
          rw [currentId_eq hw hd]
          exact .inr ⟨hk, .inl ⟨pc, howns, mem_append_right _ hpc⟩⟩
      · obtain ⟨hd, hp'⟩ := Counted.pending_keep hs hw hi hp
        rw [currentId_eq hw hd]
        exact .inr ⟨hk, .inr hp'⟩
    · have hev : e.event = some (.granted i k a (.response r)) := by simpa using hmem
      cases Emits.of_fire he hev with
      | granted i k cause x hx =>
        obtain ⟨hi, -⟩ := hs.fact (.notInitial i) (by simp)
        have hcur := hs.claim (.swap i k x.address) (by simp)
        refine ⟨hw.created ▸ hi, .inr ⟨?_, .inl ⟨.compare, rfl, ?_⟩⟩⟩
        · rw [(hw.currentId i).resolve_right (by simp)]
          exact hcur x hx rfl
        · simp only [Spi.fire, firePermission, hx, map_some, if_true,
            some.injEq] at he
          subst he
          exact mem_cons_self
  · intro es c₁ choice e hrun hinv _ he hmem
    have ho := Outside.of_outside he
    rcases mem_append.mp hmem with hmem | hmem
    · obtain ⟨hi, hcases⟩ := hinv hmem
      refine ⟨hi.trans_le ho.created, ?_⟩
      rw [currentId, ho.invocation i hi]
      refine hcases.imp_right fun hk => ⟨hk.1, hk.2.imp_left ?_⟩
      rintro ⟨pc, howns, hpc⟩
      exact ⟨pc, howns, mem_append_left _ hpc⟩
    · have hev : e.event = some (.granted i k a (.response r)) := by simpa using hmem
      exact (ho.not_event hev (by simp) (by simp)).elim

/-- The response with the id `k` completes the promise only after its acks for `k`
have arrived, and when it and as many acks for `k` are processed the promise is
satisfied. -/
theorem acks_per_attempt (h : Run service CountsOwnAcks (start settings alive) events c) :
    (∀ i r before after, events = before ++ .completed i r :: after →
      r.numberOfBackups ≤ (acksFor r.correlationId before : ℤ)) ∧
    ∀ i k a r, .granted i k a (.response r) ∈ events →
      (acksFor k events : ℤ) = r.numberOfBackups →
      (∀ pc, .responding i r pc ∉ c.frames) → .processResponse (.backupAck k) ∉ c.frames →
      (∀ pc, .backup k i pc ∉ c.frames) → (c.shared.invocation i).promise ≠ none := by
  constructor
  · intro i r before after hevents
    rw [hevents] at h
    obtain ⟨c₁, mv, c₂, hbefore, -, hstep, -⟩ := h.split
    rcases hstep.inversion with ⟨f, choice, others, threads, e, -, he, -, hev, hframes, -⟩ |
      ⟨choice, e, -, he, -, hev, -⟩
    · exact ((Counted.run hbefore).perm hframes).le_of_completed ((run hbefore).perm hframes)
        (Emits.of_fire he hev.symm)
    · exact ((Outside.of_outside he).not_event hev.symm (by simp) (by simp)).elim
  · intro i k a r hgranted hall hresponding hprocess hbackup hopen
    have hc := Counted.run h
    obtain ⟨hi, hcases⟩ := accepted_run h hgranted
    obtain ⟨hk, hcases⟩ := hcases.resolve_left (not_not.mpr hopen)
    have hp : (c.shared.invocation i).pendingResponse = some r :=
      hcases.resolve_left fun ⟨pc, _, hpc⟩ => hresponding pc hpc
    exact hc.settled_of_pending (run h) hi hp hopen (hk ▸ hall) hresponding (hk ▸ hprocess)
      (hk ▸ hbackup)

end Runs

def countsAtOnce (c : ServiceConfig) : Move Frame Choice → Bool
  | .frame (.failing _ _) _ => false
  | .frame (.backup k i .increment) _ => c.shared.currentId i == k
  | .frame (.processResponse (.backupAck k)) _ => (c.shared.invocations k).isSome
  | _ => true

theorem countsOwnAcks_of_countsAtOnce (c : ServiceConfig) (mv : Move Frame Choice)
    (h : countsAtOnce c mv = true) : CountsOwnAcks c mv := by
  unfold CountsOwnAcks
  split
  · cases h
  · exact beq_iff_eq.mp h
  · intro hnone
    simp [countsAtOnce, hnone] at h
  · trivial

def ackedPicks : List (Pick Choice) :=
  waitingPicks ++
    [.outside (.arrive (.backupAck 1)), .thread 4 .go, .thread 4 .go, .thread 4 .go,
      .thread 4 (.flag true), .thread 4 .go, .thread 4 .go, .thread 4 .go, .thread 4 .go]

theorem acks_per_attempt_acked :
    ∃ events c, Run service CountsOwnAcks (start {} [7]) events c ∧
      .completed 0 ⟨1, 1⟩ ∈ events ∧ (c.shared.invocation 0).promise ≠ none := by
  have hexec : ∃ events c, service.execAll countsAtOnce (start {} [7]) ackedPicks =
      some (events, c) ∧ c.frames = [.socket 7 .completed] ∧
      events = [.invoked 0, .published 0 1 7, .arrived (.response ⟨1, 1⟩),
        .granted 0 1 1 (.response ⟨1, 1⟩), .arrived (.backupAck 1), .completed 0 ⟨1, 1⟩] :=
    ⟨_, _, rfl, rfl, rfl⟩
  obtain ⟨events, c, hexec, hframes, hevents⟩ := hexec
  have hrun : Run service CountsOwnAcks (start {} [7]) events c :=
    (Run.of_execAll hexec).mono countsOwnAcks_of_countsAtOnce
  have hset := (acks_per_attempt hrun).2 0 1 1 ⟨1, 1⟩ (by simp [hevents])
    (by simp [hevents, acksFor]) (by simp [hframes]) (by simp [hframes]) (by simp [hframes])
  exact ⟨events, c, hrun, by simp [hevents], hset⟩

/-- The first attempt counts an ack and then fails; the second one is answered by a
response that expects one ack. -/
def carriedOverPicks : List (Pick Choice) :=
  .outside (.invoke {}) :: sendPicks 0 7 ++
    [.thread 1 .go, .outside (.memberReads 7 0), .thread 2 (.flag true),
      .outside (.arrive (.backupAck 1)), .thread 3 .go, .thread 3 .go, .thread 3 .go,
      .outside (.arrive (.error 1 ⟨.other 0, true⟩))] ++
    List.replicate 8 (.thread 4 .go) ++ .thread 5 .go :: sendPicks 5 7 ++
    [.thread 6 .go, .outside (.memberReads 7 0), .outside (.arrive (.response ⟨2, 1⟩))] ++
    List.replicate 6 (.thread 8 .go)

theorem acks_carried_over :
    ∃ events c, Run service Always (start {} [7]) events c ∧ .completed 0 ⟨2, 1⟩ ∈ events ∧
      acksFor 2 events = 0 := by
  have hexec : ∃ events c, service.execAll (fun _ _ => true) (start {} [7]) carriedOverPicks =
      some (events, c) ∧
      events = [.invoked 0, .published 0 1 7, .arrived (.backupAck 1),
        .arrived (.error 1 ⟨.other 0, true⟩), .granted 0 1 1 (.serverError ⟨.other 0, true⟩),
        .retried 0 2, .published 0 2 7, .arrived (.response ⟨2, 1⟩),
        .granted 0 2 2 (.response ⟨2, 1⟩), .completed 0 ⟨2, 1⟩] := ⟨_, _, rfl, rfl⟩
  obtain ⟨events, c, hexec, hevents⟩ := hexec
  exact ⟨events, c, (Run.of_execAll hexec).always, by simp [hevents],
    by simp [hevents, acksFor]⟩

end HazelcastClient.Spi
