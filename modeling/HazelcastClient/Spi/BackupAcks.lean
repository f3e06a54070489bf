import HazelcastClient.Spi.ControlFlow
import Mathlib.Tactic.Ring

/-!
# One response and its backup acks

The threads of one attempt: a call of `notify_response` for a response that
expects `n` backups, and calls of `notify_backup` for at most `n` acks. The
counter of received acks is the number of calls that have passed their increment
(`Acks.count`), so whoever finds it equal to `n` knows that all acks are in. When
the promise is open and all acks are in, some thread is on its way to complete it
(`Acks.progress`).
-/

namespace HazelcastClient.Spi

open Interleaving List

attribute [local simp] Effect.spawnedFrames

def isIncrement : Frame → Bool
  | .backup _ _ .increment => true
  | _ => false

def isResponding : Frame → Bool
  | .responding _ _ _ => true
  | _ => false

/-- An ack that has been counted and goes on to complete the promise, once the
response is pending and `n` acks are counted. -/
def isHot (n : ℤ) : Frame → Bool
  | .backup _ _ .loadPending | .backup _ _ .readAcks | .backup _ _ (.readReceived _)
  | .backup _ _ .complete => true
  | .backup _ _ (.readExpected received) => received = n
  | _ => false

def AckFrame (i : InvId) (r : Response) (v : Invocation) : Frame → Prop
  | .responding j r' pc => j = i ∧ r' = r ∧
      match pc with
      | .compare | .storeTime | .storeExpected => v.pendingResponse = none ∧ v.promise = none
      | .storePending => v.pendingResponse = none ∧ v.promise = none ∧
          v.backupAcksExpected = r.numberOfBackups
      | .recheck => v.pendingResponse = some r
      | .complete _ => v.backupAcksReceived = r.numberOfBackups
  | .backup _ j pc => j = i ∧
      match pc with
      | .increment | .loadPending => True
      | .readAcks => v.pendingResponse = some r
      | .readExpected received => v.pendingResponse = some r ∧ received ≤ v.backupAcksReceived
      | .readReceived expected => v.pendingResponse = some r ∧ expected = r.numberOfBackups
      | .complete => v.pendingResponse = some r ∧ v.backupAcksReceived = r.numberOfBackups
  | .completion j _ => j = i ∧ v.promise ≠ none
  | _ => False

/-- The invariant of an attempt with `m` acks. -/
structure Acks (i : InvId) (r : Response) (m : ℕ) (v : Invocation) (frames : List Frame) :
    Prop where
  count : v.backupAcksReceived + frames.countP isIncrement = m
  single : frames.countP isResponding ≤ 1
  pending : v.pendingResponse = none ∨
    v.pendingResponse = some r ∧ v.backupAcksExpected = r.numberOfBackups
  promise : v.promise = none ∨
    v.promise = some (.value r) ∧ v.backupAcksReceived = r.numberOfBackups
  known : ∀ f ∈ frames, AckFrame i r v f
  progress : v.promise = none → (∃ f ∈ frames, isResponding f) ∨
    v.pendingResponse = some r ∧
      (v.backupAcksReceived < r.numberOfBackups ∨ ∃ f ∈ frames, isHot r.numberOfBackups f)

namespace Acks

variable {i : InvId} {r : Response} {m : ℕ} {v : Invocation} {frames frames' : List Frame}
  {pc : Responding} {others : List Frame} {f : Frame} {k : CorrId} {s : Client}
  {e : ServiceEffect} {choice : Choice} {v' : Invocation}

theorem perm (h : Acks i r m v frames) (hp : frames.Perm frames') : Acks i r m v frames' := by
  obtain ⟨count, single, pending, promise, known, progress⟩ := h
  simp only [hp.mem_iff, hp.countP_eq] at count single known progress
  exact ⟨count, single, pending, promise, known, progress⟩

theorem not_responding (h : Acks i r m v (.responding i r pc :: others)) (hf : f ∈ others) :
    isResponding f = false := by
  have hs := h.single
  rw [countP_cons_of_pos rfl] at hs
  have hzero : others.countP isResponding = 0 := by omega
  rw [countP_eq_zero] at hzero
  simpa using hzero f hf

theorem received_le (h : Acks i r m v frames) : v.backupAcksReceived ≤ m := by
  have hc := h.count
  omega

section

variable (h : Acks i r m v (f :: others)) (hm : (m : ℤ) ≤ r.numberOfBackups)

include h hm

theorem replace {next : List Frame} (hf : isIncrement f = false)
    (hinc : ∀ g ∈ next, isIncrement g = false)
    (hresp : next.countP isResponding ≤ if isResponding f then 1 else 0)
    (hknown : ∀ g ∈ next, AckFrame i r v g)
    (hprog : isResponding f = true → (∃ g ∈ next, isResponding g) ∨
      v.pendingResponse = some r ∧ v.backupAcksReceived < r.numberOfBackups)
    (hhot : v.backupAcksReceived = r.numberOfBackups → v.pendingResponse = some r →
      isHot r.numberOfBackups f → ∃ g ∈ next, isHot r.numberOfBackups g) :
    Acks i r m v (next ++ others) where
  count := by
    have hc := h.count
    rw [countP_cons_of_neg (by simp [hf])] at hc
    rw [countP_append, countP_eq_zero.mpr (by simpa using hinc), Nat.zero_add]
    exact hc
  single := by
    have hs := h.single
    rw [countP_cons] at hs
    rw [countP_append]
    omega
  pending := h.pending
  promise := h.promise
  known := by
    intro g hg
    rcases mem_append.mp hg with hg | hg
    · exact hknown g hg
    · exact h.known g (mem_cons_of_mem _ hg)
  progress := by
    intro hopen
    have hle := h.received_le
    rcases h.progress hopen with ⟨g, hg, hr⟩ | ⟨hpend, hlt | ⟨g, hg, hh⟩⟩
    · rcases mem_cons.mp hg with rfl | hg
      · rcases hprog hr with ⟨g', hg', hr'⟩ | ⟨hpend, hlt⟩
        · exact .inl ⟨g', mem_append_left _ hg', hr'⟩
        · exact .inr ⟨hpend, .inl hlt⟩
      · exact .inl ⟨g, mem_append_right _ hg, hr⟩
    · exact .inr ⟨hpend, .inl hlt⟩
    · rcases mem_cons.mp hg with rfl | hg
      · by_cases hlt : v.backupAcksReceived < r.numberOfBackups
        · exact .inr ⟨hpend, .inl hlt⟩
        · obtain ⟨g', hg', hh'⟩ := hhot (by omega) hpend hh
          exact .inr ⟨hpend, .inr ⟨g', mem_append_left _ hg', hh'⟩⟩
      · exact .inr ⟨hpend, .inr ⟨g, mem_append_right _ hg, hh⟩⟩

/-- The rule for a step to one frame of the same call. -/
theorem move {g : Frame} (hknown : AckFrame i r v g)
    (hhot : v.backupAcksReceived = r.numberOfBackups → isHot r.numberOfBackups f →
      isHot r.numberOfBackups g)
    (hresp : isResponding g = isResponding f) (hf : isIncrement f = false)
    (hg : isIncrement g = false) : Acks i r m v ([g] ++ others) := by
  refine h.replace hm hf (by simpa using hg) ?_ (by simpa using hknown) (fun hr => ?_) ?_
  · simp [countP_cons, hresp]
  · exact .inl ⟨g, mem_cons_self, hresp.trans hr⟩
  · exact fun hfull _ hh => ⟨g, mem_cons_self, hhot hfull hh⟩

theorem leave
    (hhot : v.backupAcksReceived = r.numberOfBackups → v.pendingResponse = some r →
      isHot r.numberOfBackups f = false)
    (hprog : isResponding f = true → v.pendingResponse = some r ∧
      v.backupAcksReceived < r.numberOfBackups)
    (hf : isIncrement f = false) : Acks i r m v others := by
  have hinc : ∀ g ∈ ([] : List Frame), isIncrement g = false := by simp
  refine h.replace hm hf hinc (Nat.zero_le _) (by simp) (fun hr => .inr (hprog hr))
    fun hfull hpend hh => ?_
  rw [hhot hfull hpend] at hh
  cases hh

end

attribute [local simp] isIncrement isResponding isHot

section

variable (h : Acks i r m v (.responding i r pc :: others))

include h

/-- What the steps of `notify_response` before the recheck do not read stays
known to the acks. -/
theorem known_of_backup (hreceived : v'.backupAcksReceived = v.backupAcksReceived)
    (hpromise : v'.promise = v.promise)
    (hpending : v.pendingResponse = some r → v'.pendingResponse = some r) :
    ∀ f ∈ others, AckFrame i r v' f := by
  intro f hf
  have hk := h.known f (mem_cons_of_mem _ hf)
  have hr := h.not_responding hf
  match f, hk, hr with
  | .backup _ _ .increment, hk, _ => exact hk
  | .backup _ _ .loadPending, hk, _ => exact hk
  | .backup _ _ .readAcks, hk, _ => exact ⟨hk.1, hpending hk.2⟩
  | .backup _ _ (.readExpected _), hk, _ => exact ⟨hk.1, hpending hk.2.1, hreceived ▸ hk.2.2⟩
  | .backup _ _ (.readReceived _), hk, _ => exact ⟨hk.1, hpending hk.2.1, hk.2.2⟩
  | .backup _ _ .complete, hk, _ => exact ⟨hk.1, hpending hk.2.1, hreceived ▸ hk.2.2⟩
  | .completion _ _, hk, _ => exact ⟨hk.1, hpromise ▸ hk.2⟩

/-- The rule for the stores of `notify_response`. -/
theorem store {pc' : Responding} (hreceived : v'.backupAcksReceived = v.backupAcksReceived)
    (hpromise : v'.promise = v.promise)
    (hkeep : v.pendingResponse = some r → v'.pendingResponse = some r)
    (hpending : v'.pendingResponse = none ∨
      v'.pendingResponse = some r ∧ v'.backupAcksExpected = r.numberOfBackups)
    (hknown : AckFrame i r v' (.responding i r pc')) :
    Acks i r m v' (.responding i r pc' :: others) where
  count := by simpa [hreceived] using h.count
  single := by simpa [countP_cons] using h.single
  pending := hpending
  promise := by simpa only [hpromise, hreceived] using h.promise
  known := forall_mem_cons.mpr ⟨hknown, h.known_of_backup hreceived hpromise hkeep⟩
  progress := fun _ => .inl ⟨_, mem_cons_self, rfl⟩

end

theorem increment (h : Acks i r m v (.backup k i .increment :: others))
    (hm : (m : ℤ) ≤ r.numberOfBackups) :
    Acks i r m { v with backupAcksReceived := v.backupAcksReceived + 1 }
      (.backup k i .loadPending :: others) := by
  have hc := h.count
  rw [countP_cons_of_pos rfl] at hc
  push_cast at hc
  have hlt : v.backupAcksReceived ≠ r.numberOfBackups := by omega
  have hopen : v.promise = none := h.promise.resolve_right fun hp => hlt hp.2
  refine ⟨?_, ?_, h.pending, .inl hopen, ?_, ?_⟩
  · rw [countP_cons_of_neg (by simp)]
    simp only
    omega
  · simpa using h.single
  · intro f hf
    rcases mem_cons.mp hf with rfl | hf
    · exact ⟨rfl, trivial⟩
    · have hk := h.known f (mem_cons_of_mem _ hf)
      cases f with
      | responding j r' pc =>
        cases pc with
        | complete waited => exact absurd hk.2.2 hlt
        | _ => exact hk
      | backup l j pc =>
        cases pc with
        | readExpected received =>
          exact ⟨hk.1, hk.2.1, hk.2.2.trans (Int.le_add_one (le_refl _))⟩
        | complete => exact absurd hk.2.2 hlt
        | _ => exact hk
      | _ => exact hk
  · intro _
    rcases h.progress hopen with ⟨f, hf, hr⟩ | ⟨hpend, -⟩
    · rcases mem_cons.mp hf with rfl | hf
      · exact absurd hr (by simp)
      · exact .inl ⟨f, mem_cons_of_mem _ hf, hr⟩
    · exact .inr ⟨hpend, .inr ⟨_, mem_cons_self, rfl⟩⟩

/-- The promise is satisfied by a thread that has found the counter complete. -/
theorem satisfy (h : Acks i r m v (f :: others)) (hf : isIncrement f = false)
    (hfull : v.backupAcksReceived = r.numberOfBackups)
    (hnone : ∀ g ∈ others, isResponding g = true → v.pendingResponse = some r) :
    Acks i r m (v.satisfy (.value r)) (.completion i .readId :: others) := by
  have hset : (v.satisfy (.value r)).promise = some (.value r) := by
    rcases h.promise with hp | ⟨hp, -⟩ <;> simp [Invocation.satisfy, hp]
  refine ⟨?_, ?_, h.pending, .inr ⟨hset, hfull⟩, ?_, ?_⟩
  · have hc := h.count
    rw [countP_cons_of_neg (by simp [hf, -isIncrement])] at hc
    rw [countP_cons_of_neg (by simp)]
    exact hc
  · have hs := h.single
    rw [countP_cons] at hs
    rw [countP_cons_of_neg (by simp)]
    omega
  · intro g hg
    rcases mem_cons.mp hg with rfl | hg
    · exact ⟨rfl, by simp [hset]⟩
    · have hk := h.known g (mem_cons_of_mem _ hg)
      have hn := hnone g hg
      cases g with
      | responding j r' pc =>
        cases pc with
        | recheck | complete waited => exact hk
        | _ => exact absurd (hn rfl) (by simp [hk.2.2.1])
      | completion j pc => exact ⟨hk.1, by simp [hset]⟩
      | _ => exact hk
  · intro hopen
    rw [hset] at hopen
    exact absurd hopen (by simp)

theorem fire_responding (h : Acks i r m (s.invocation i) (.responding i r pc :: others))
    (hm : (m : ℤ) ≤ r.numberOfBackups) (hfire : fireResponding s i r pc = some e) :
    Acks i r m (e.shared.invocation i) (e.frames ++ others) := by
  have hknown := h.known _ mem_cons_self
  have hle := h.received_le
  revert hfire
  fun_cases fireResponding s i r pc <;> rintro ⟨⟩
  · exact h.move hm hknown (by simp) rfl rfl rfl
  · exact h.move hm ⟨rfl, rfl, by omega⟩ (by simp) rfl rfl rfl
  · rw [Client.update_invocation_self]
    exact h.store rfl rfl id h.pending hknown
  · rw [Client.update_invocation_self]
    obtain ⟨hi, hr, hpend, hopen⟩ := hknown
    exact h.store rfl rfl id (.inl hpend) ⟨hi, hr, hpend, hopen, rfl⟩
  · rw [Client.update_invocation_self]
    exact h.store rfl rfl (fun _ => rfl) (.inr ⟨rfl, hknown.2.2.2.2⟩) ⟨rfl, rfl, rfl⟩
  · exact h.leave hm (by simp) (fun _ => ⟨hknown.2.2, by omega⟩) rfl
  · rename_i heq
    exact h.move hm ⟨rfl, rfl, not_not.mp heq⟩ (by simp) rfl rfl rfl
  · have hsat := h.satisfy rfl hknown.2.2 fun g hg hr =>
      absurd hr (by simp [h.not_responding hg, -isResponding])
    simpa [setValue] using hsat

theorem fire_backup {pc : Backup} (h : Acks i r m (s.invocation i) (.backup k i pc :: others))
    (hm : (m : ℤ) ≤ r.numberOfBackups) (hfire : fireBackup s choice k i pc = some e) :
    Acks i r m (e.shared.invocation i) (e.frames ++ others) := by
  have hknown := h.known _ mem_cons_self
  have hexpected : (s.invocation i).pendingResponse = some r →
      (s.invocation i).backupAcksExpected = r.numberOfBackups := by
    intro hp
    rcases h.pending with hnone | ⟨-, heq⟩
    · exact absurd hp (by simp [hnone])
    · exact heq
  revert hfire
  fun_cases fireBackup s choice k i pc
  case case11 =>
    intro hfire
    obtain ⟨-, hpend, hfull⟩ := hknown
    rw [hpend] at hfire
    cases hfire
    have hsat := h.satisfy rfl hfull fun _ _ _ => hpend
    simpa [setValue] using hsat
  all_goals rintro ⟨⟩
  · simpa using h.increment hm
  · rename_i hnone
    exact h.leave hm (by simp [hnone]) (by simp) rfl
  · rename_i r' hsome
    have hr : (s.invocation i).pendingResponse = some r :=
      (h.pending.resolve_left (by simp [hsome])).1
    exact h.move hm ⟨rfl, hr⟩ (by simp) rfl rfl rfl
  · exact h.move hm ⟨rfl, hknown.2, hexpected hknown.2⟩ (by simp) rfl rfl rfl
  · exact h.move hm ⟨rfl, hknown.2, le_refl _⟩ (fun heq _ => by simp [heq]) rfl rfl rfl
  · rename_i hne
    obtain ⟨-, hpend, rfl⟩ := hknown
    exact h.leave hm (fun heq _ => absurd heq.symm hne) (by simp) rfl
  · rename_i heq
    obtain ⟨-, hpend, rfl⟩ := hknown
    exact h.move hm ⟨rfl, hpend, (not_not.mp heq).symm⟩ (by simp) rfl rfl rfl
  · rename_i hne
    rw [hexpected hknown.2.1] at hne
    exact h.leave hm (fun _ _ => by simpa using Ne.symm hne) (by simp) rfl
  · rename_i heq
    obtain ⟨-, hpend, hbound⟩ := hknown
    rw [hexpected hpend, not_not] at heq
    have hle := h.received_le
    exact h.move hm ⟨rfl, hpend, by omega⟩ (by simp) rfl rfl rfl

theorem fire_step {threads : List ServiceThread} (h : Acks i r m (s.invocation i) (f :: others))
    (hm : (m : ℤ) ≤ r.numberOfBackups) (hfire : fire s threads choice f = some e) :
    Acks i r m (e.shared.invocation i) (e.frames ++ others) := by
  have hknown := h.known _ mem_cons_self
  match f, hknown with
  | .responding j r' pc, ⟨hj, hr, _⟩ =>
    subst hj hr
    exact h.fire_responding hm hfire
  | .backup k j pc, ⟨hj, _⟩ =>
    subst hj
    exact h.fire_backup hm hfire
  | .completion j pc, ⟨hj, hset⟩ =>
    subst hj
    cases pc with
    | readId =>
      cases hfire
      exact h.move hm ⟨rfl, hset⟩ (by simp) rfl rfl rfl
    | eraseKey k =>
      cases hfire
      exact h.leave hm (by simp) (by simp) rfl

end Acks

/-- The threads of one attempt: one `notify_response` and some `notify_backup`. -/
def attempt (s : Client) (i : InvId) (r : Response) (acks : ℕ) : ServiceConfig :=
  ⟨s, ⟨.response, [.responding i r .compare]⟩ ::
    List.replicate acks ⟨.response, [.backup r.correlationId i .increment]⟩⟩

/-- Only the threads of the attempt run, while time passes. -/
def AttemptMove (_ : ServiceConfig) : Move Frame Choice → Prop
  | .frame _ _ => True
  | .outside choice => choice = .tick

theorem attempt_frames (s : Client) (i : InvId) (r : Response) (acks : ℕ) :
    (attempt s i r acks).frames = .responding i r .compare ::
      List.replicate acks (.backup r.correlationId i .increment) := by
  simp only [attempt, Config.frames, flatMap_cons, singleton_append]
  congr 1
  induction acks with
  | zero => rfl
  | succ acks ih => rw [replicate_succ, flatMap_cons, ih]; rfl

attribute [local simp] isIncrement isResponding isHot

variable {s : Client} {r : Response}

theorem acks_attempt {i : InvId} (acks : ℕ) (hreceived : (s.invocation i).backupAcksReceived = 0)
    (hpending : (s.invocation i).pendingResponse = none)
    (hpromise : (s.invocation i).promise = none) :
    Acks i r acks (s.invocation i) (attempt s i r acks).frames := by
  rw [attempt_frames]
  refine ⟨?_, ?_, .inl hpending, .inl hpromise, ?_,
    fun _ => .inl ⟨_, mem_cons_self, rfl⟩⟩
  · rw [hreceived, countP_cons_of_neg (by simp), countP_replicate]
    simp
  · rw [countP_cons_of_pos rfl, countP_replicate]
    simp
  · refine forall_mem_cons.mpr ⟨⟨rfl, rfl, hpending, hpromise⟩, ?_⟩
    intro f hf
    rw [eq_of_mem_replicate hf]
    exact ⟨rfl, trivial⟩

theorem acks_run {i : InvId} {acks : ℕ} {events : List Event} {c : ServiceConfig}
    (hacks : (acks : ℤ) ≤ r.numberOfBackups) (hreceived : (s.invocation i).backupAcksReceived = 0)
    (hpending : (s.invocation i).pendingResponse = none)
    (hpromise : (s.invocation i).promise = none)
    (hrun : Run service AttemptMove (attempt s i r acks) events c) :
    Acks i r acks (c.shared.invocation i) c.frames := by
  refine hrun.invariant (P := fun _ c => Acks i r acks (c.shared.invocation i) c.frames)
    (acks_attempt acks hreceived hpending hpromise) ?_
  intro es c₁ mv ev c₂ _ hinv hok hstep
  rcases hstep.inversion with ⟨f, choice, others, threads, e, -, hfire, hshared, -, hbefore,
    hafter⟩ | ⟨choice, e, rfl, hout, hshared, -, hframes⟩
  · rw [hshared]
    exact ((hinv.perm hbefore).fire_step hacks hfire).perm hafter.symm
  · have htick : choice = .tick := hok
    subst htick
    cases hout
    rw [hshared, hframes]
    simpa using hinv

/-- The promise is only set with the response, not before `notify_response` has
started and all expected acks are counted, and it is set when all calls are over. -/
theorem attempt_completes (s : Client) (i : InvId) (r : Response) (n acks : ℕ)
    (hn : r.numberOfBackups = n) (hacks : acks ≤ n)
    (hreceived : (s.invocation i).backupAcksReceived = 0)
    (hpending : (s.invocation i).pendingResponse = none)
    (hpromise : (s.invocation i).promise = none) {events : List Event} {c : ServiceConfig}
    (hrun : Run service AttemptMove (attempt s i r acks) events c) :
    (∀ o, (c.shared.invocation i).promise = some o → o = .value r) ∧
      ((c.shared.invocation i).promise ≠ none →
        .responding i r .compare ∉ c.frames ∧ acks = n ∧ c.frames.countP isIncrement = 0) ∧
      (acks = n → (∀ f ∈ c.frames, ∃ pc, f = .completion i pc) →
        (c.shared.invocation i).promise = some (.value r)) := by
  have hinv := acks_run (by rw [hn]; exact_mod_cast hacks) hreceived hpending hpromise hrun
  have hcount := hinv.count
  refine ⟨?_, ?_, ?_⟩
  · intro o ho
    rcases hinv.promise with hp | ⟨hp, -⟩
    · rw [ho] at hp
      exact absurd hp (by simp)
    · rw [ho] at hp
      exact Option.some.inj hp
  · intro hset
    obtain ⟨-, hfull⟩ := hinv.promise.resolve_left hset
    refine ⟨fun hmem => hset (hinv.known _ hmem).2.2.2, ?_, ?_⟩ <;> omega
  · intro hall hdone
    by_contra hopen
    have hnone : (c.shared.invocation i).promise = none :=
      hinv.promise.resolve_right fun hp => hopen hp.1
    have hzero : c.frames.countP isIncrement = 0 := by
      rw [countP_eq_zero]
      intro f hf
      obtain ⟨pc, rfl⟩ := hdone f hf
      simp
    rcases hinv.progress hnone with ⟨f, hf, hr⟩ | ⟨-, hlt | ⟨f, hf, hh⟩⟩
    · obtain ⟨pc, rfl⟩ := hdone f hf
      exact absurd hr (by simp)
    · omega
    · obtain ⟨pc, rfl⟩ := hdone f hf
      exact absurd hh (by simp)

/-- The ack comes between the two looks at the counter. -/
theorem attempt_completes_one_ack :
    ∃ events c, Run service AttemptMove (attempt {} 0 ⟨1, 1⟩ 1) events c ∧
      (c.shared.invocation 0).promise = some (.value ⟨1, 1⟩) := by
  have hexec : ∃ events c, service.execAll (fun _ mv => mv.isFrame) (attempt {} 0 ⟨1, 1⟩ 1)
      [.thread 0 .go, .thread 1 .go, .thread 1 .go, .thread 0 .go, .thread 0 .go, .thread 0 .go,
        .thread 0 .go, .thread 0 .go] = some (events, c) ∧
      c.frames = [.completion 0 .readId] := ⟨_, _, rfl, rfl⟩
  obtain ⟨events, c, hexec, hframes⟩ := hexec
  have hrun : Run service AttemptMove (attempt {} 0 ⟨1, 1⟩ 1) events c := by
    refine (Run.of_execAll hexec).mono fun _ mv hmv => ?_
    cases mv with
    | frame f choice => trivial
    | outside choice => exact absurd hmv (by simp [Move.isFrame])
  have h := attempt_completes {} 0 ⟨1, 1⟩ 1 1 rfl (le_refl _) rfl rfl rfl hrun
  exact ⟨events, c, hrun, h.2.2 rfl (by simp [hframes])⟩

end HazelcastClient.Spi
