import HazelcastClient.Spi.Service

/-!
# The control flow between frames

`Follows f g` says that a step of `f` may leave or spawn the frame `g`. The places
inside one function are not told apart where no property needs it; what a place
knows about the state is said by the invariants. `Emits` tells which frame emits
which event, and `Enters` with which frames the environment starts a thread.
-/

namespace HazelcastClient.Spi

open Interleaving List Option

inductive Follows : Frame → Frame → Prop
  | launch (i : InvId) (pc pc' : Launch) : Follows (.launch i pc) (.launch i pc')
  | launchFailing (i : InvId) (pc : Launch) (x : IException) :
      Follows (.launch i pc) (.failing i (.readId x))
  | publish (i : InvId) (c : ConnId) (k : CorrId) :
      Follows (.launch i (.publish c k)) (.sent i c (.recheck k))
  | sent (i : InvId) (c : ConnId) (pc pc' : Sent) : Follows (.sent i c pc) (.sent i c pc')
  | recheck (i : InvId) (c : ConnId) (k : CorrId) :
      Follows (.sent i c (.recheck k)) (.permission i k (.connectionClosed c) .load)
  | enqueue (i : InvId) (c : ConnId) (m : ℕ) (k : CorrId) :
      Follows (.sent i c (.enqueue m k)) (.socket c .flush)
  | permission (i : InvId) (k : CorrId) (cause : Cause) (pc pc' : Permission) :
      Follows (.permission i k cause pc) (.permission i k cause pc')
  | granted (i : InvId) (k : CorrId) (r : Response) (a : ℕ) :
      Follows (.permission i k (.response r) (.cas a)) (.responding i r .compare)
  | grantedError (i : InvId) (k : CorrId) (x : IException) (a : ℕ) :
      Follows (.permission i k (.serverError x) (.cas a)) (.failing i (.readId x))
  | grantedClosed (i : InvId) (k : CorrId) (c : ConnId) (a : ℕ) :
      Follows (.permission i k (.connectionClosed c) (.cas a))
        (.failing i (.readId targetDisconnected))
  | responding (i : InvId) (r : Response) (pc pc' : Responding) :
      Follows (.responding i r pc) (.responding i r pc')
  | respondingDone (i : InvId) (r : Response) (waited : Bool) :
      Follows (.responding i r (.complete waited)) (.completion i .readId)
  | backup (k : CorrId) (i : InvId) (pc pc' : Backup) (hpc : pc' ≠ .increment) :
      Follows (.backup k i pc) (.backup k i pc')
  | backupDone (k : CorrId) (i : InvId) :
      Follows (.backup k i .complete) (.completion i .readId)
  | completion (i : InvId) (pc pc' : Completion) : Follows (.completion i pc) (.completion i pc')
  | failing (i : InvId) (pc pc' : Failing) : Follows (.failing i pc) (.failing i pc')
  | execute (i : InvId) : Follows (.failing i .execute) (.launch i .retry)
  | response (r : Response) (i : InvId) : Follows (.processResponse (.response r))
      (.permission i r.correlationId (.response r) .load)
  | error (k : CorrId) (x : IException) (i : InvId) :
      Follows (.processResponse (.error k x)) (.permission i k (.serverError x) .load)
  | backupAck (k : CorrId) (i : InvId) :
      Follows (.processResponse (.backupAck k)) (.backup k i .increment)
  | closing (c : ConnId) (pc pc' : Closing) (hpc : pc' ≠ .cas) :
      Follows (.closing c pc) (.closing c pc')
  | closingDrain (c : ConnId) : Follows (.closing c .cas) (.socket c .drain)
  | deregister (c : ConnId) (k : CorrId) (i : InvId) : Follows (.closing c (.deregister k i))
      (.permission i k (.connectionClosed c) .load)
  | sweeping (pc pc' : Sweeping) : Follows (.sweeping pc) (.sweeping pc')
  | socket (c : ConnId) (pc pc' : Socket) : Follows (.socket c pc) (.socket c pc')
  | socketClosing (c : ConnId) : Follows (.socket c .completed) (.closing c .cas)
  | shutdown (pc pc' : Shutdown) : Follows (.shutdown pc) (.shutdown pc')
  | shutdownClosing (c : ConnId) : Follows (.shutdown .closeConnections) (.closing c .cas)

namespace Follows

variable {s : Client} {e : ServiceEffect} {g : Frame} {choice : Choice} {i : InvId} {c : ConnId}
  {k : CorrId} {threads : List ServiceThread}

theorem only {f : Frame} (h : Follows f g) : ∀ g' ∈ [g], Follows f g' :=
  forall_mem_singleton.mpr h

theorem both {f g' : Frame} (h : Follows f g) (h' : Follows f g') :
    ∀ g'' ∈ [g, g'], Follows f g'' :=
  forall_mem_cons.mpr ⟨h, only h'⟩

theorem of_launch {pc : Launch} (he : fireLaunch s choice i pc = some e) :
    ∀ g ∈ e.frames, Follows (.launch i pc) g := by
  revert he
  fun_cases fireLaunch s choice i pc <;> rintro ⟨⟩
  case case13 c k => exact only (publish i c k)
  case case2 | case6 | case7 => exact only (launchFailing i _ _)
  all_goals exact only (launch i _ _)

theorem of_sent {pc : Sent} (he : fireSent s i c pc = some e) :
    ∀ g ∈ e.frames, Follows (.sent i c pc) g := by
  revert he
  fun_cases fireSent s i c pc <;> rintro ⟨⟩
  · exact only (sent i c _ _)
  · exact only (recheck i c _)
  · exact only (sent i c _ _)
  · exact only (sent i c _ _)
  · exact only (enqueue i c _ _)

theorem of_permission {cause : Cause} {pc : Permission}
    (he : firePermission s i k cause pc = some e) :
    ∀ g ∈ e.frames, Follows (.permission i k cause pc) g := by
  revert he
  fun_cases firePermission s i k cause pc <;> rintro ⟨⟩
  case case2 | case3 => exact only (permission i k cause _ _)
  case case5 a _ =>
    cases cause with
    | response r => exact only (granted i k r a)
    | serverError x => exact only (grantedError i k x a)
    | connectionClosed c => exact only (grantedClosed i k c a)
  all_goals exact forall_mem_nil _

theorem of_responding {r : Response} {pc : Responding} (he : fireResponding s i r pc = some e) :
    ∀ g ∈ e.frames, Follows (.responding i r pc) g := by
  revert he
  fun_cases fireResponding s i r pc <;> rintro ⟨⟩
  case case6 => exact forall_mem_nil _
  case case8 waited => exact only (respondingDone i r waited)
  all_goals exact only (responding i r _ _)

theorem of_backup {pc : Backup} (he : fireBackup s choice k i pc = some e) :
    ∀ g ∈ e.frames, Follows (.backup k i pc) g := by
  revert he
  fun_cases fireBackup s choice k i pc
  case case11 =>
    intro he
    obtain ⟨r, -, rfl⟩ := map_eq_some_iff.mp he
    exact only (backupDone k i)
  all_goals rintro ⟨⟩
  case case2 | case7 | case9 => exact forall_mem_nil _
  all_goals exact only (backup k i _ _ (by simp))

theorem of_completion {pc : Completion} (he : fireCompletion s i pc = some e) :
    ∀ g ∈ e.frames, Follows (.completion i pc) g := by
  revert he
  fun_cases fireCompletion s i pc <;> rintro ⟨⟩
  · exact only (completion i _ _)
  · exact forall_mem_nil _

theorem of_failing {pc : Failing} (he : fireFailing s i pc = some e) :
    ∀ g ∈ e.frames, Follows (.failing i pc) g := by
  revert he
  fun_cases fireFailing s i pc <;> rintro ⟨⟩
  case case4 => exact only (execute i)
  case case7 => exact forall_mem_nil _
  all_goals exact only (failing i _ _)

theorem of_process {m : ServerMessage} (he : fireProcess s m = some e) :
    ∀ g ∈ e.frames, Follows (.processResponse m) g := by
  revert he
  fun_cases fireProcess s m <;> rintro ⟨⟩
  · exact forall_mem_nil _
  · exact only (response _ _)
  · exact only (error _ _ _)
  · exact only (backupAck _ _)

theorem of_closing {pc : Closing} (he : fireClosing s choice c pc = some e) :
    ∀ g ∈ e.frames, Follows (.closing c pc) g := by
  revert he
  fun_cases fireClosing s choice c pc <;> rintro ⟨⟩
  case case1 => exact both (closing c _ _ (by simp)) (closingDrain c)
  case case2 | case8 => exact forall_mem_nil _
  case case9 => exact both (closing c _ _ (by simp)) (closing c _ _ (by simp))
  case case10 k i => exact only (deregister c k i)
  all_goals exact only (closing c _ _ (by simp))

theorem of_sweeping {pc : Sweeping} (he : fireSweeping s choice pc = some e) :
    ∀ g ∈ e.frames, Follows (.sweeping pc) g := by
  revert he
  fun_cases fireSweeping s choice pc
  case case19 =>
    intro he
    obtain ⟨r, -, rfl⟩ := map_eq_some_iff.mp he
    exact only (sweeping _ _)
  all_goals rintro ⟨⟩
  case case3 => exact both (sweeping _ _) (sweeping _ _)
  case case4 | case10 | case12 | case14 | case16 | case20 => exact forall_mem_nil _
  all_goals exact only (sweeping _ _)

theorem of_socket {pc : Socket} (he : fireSocket s choice c pc = some e) :
    ∀ g ∈ e.frames, Follows (.socket c pc) g := by
  revert he
  fun_cases fireSocket s choice c pc <;> rintro ⟨⟩
  · exact forall_mem_nil _
  · exact only (socket c _ _)
  · by_cases hempty : s.writeQueue c = []
    · simp [hempty, Effect.spawnedFrames]
    · simpa [hempty, Effect.spawnedFrames] using socket c _ _
  · exact both (socketClosing c) (socket c _ _)
  · exact forall_mem_nil _

theorem of_shutdown {pc : Shutdown} (he : fireShutdown s threads choice pc = some e) :
    ∀ g ∈ e.frames, Follows (.shutdown pc) g := by
  revert he
  fun_cases fireShutdown s threads choice pc <;> rintro ⟨⟩
  case case2 | case12 => exact forall_mem_nil _
  case case3 => exact both (shutdownClosing _) (shutdown _ _)
  all_goals exact only (shutdown _ _)

theorem of_fire {f : Frame} (he : fire s threads choice f = some e)
    (hg : g ∈ e.frames) : Follows f g := by
  cases f with
  | launch i pc => exact of_launch he g hg
  | sent i c pc => exact of_sent he g hg
  | permission i k cause pc => exact of_permission he g hg
  | responding i r pc => exact of_responding he g hg
  | backup k i pc => exact of_backup he g hg
  | completion i pc => exact of_completion he g hg
  | failing i pc => exact of_failing he g hg
  | processResponse m => exact of_process he g hg
  | closing c pc => exact of_closing he g hg
  | sweeping pc => exact of_sweeping he g hg
  | socket c pc => exact of_socket he g hg
  | shutdown pc => exact of_shutdown he g hg

end Follows

/-! ## Events -/

inductive Emits (s : Client) : Frame → Event → Prop
  | published (i : InvId) (c : ConnId) (k : CorrId) :
      Emits s (.launch i (.publish c k)) (.published i s.nextAddress c)
  | granted (i : InvId) (k : CorrId) (cause : Cause) (x : Holder)
      (hx : (s.invocation i).sendConnection = some x) :
      Emits s (.permission i k cause (.cas x.address)) (.granted i k x.address cause)
  | completed (i : InvId) (r : Response) (waited : Bool)
      (hopen : (s.invocation i).promise = none) :
      Emits s (.responding i r (.complete waited)) (.completed i r)
  | completedBackup (k : CorrId) (i : InvId) (r : Response)
      (hpending : (s.invocation i).pendingResponse = some r)
      (hopen : (s.invocation i).promise = none) : Emits s (.backup k i .complete) (.completed i r)
  | retried (i : InvId) : Emits s (.failing i .execute) (.retried i s.nextCallId)
  | shutdownStarted (hrunning : s.isRunning = true) :
      Emits s (.shutdown .compareExchange) .shutdownStarted
  | shutdownReturned : Emits s (.shutdown .joinExecutor) .shutdownReturned

namespace Emits

variable {s : Client} {e : ServiceEffect} {ev : Event}

theorem of_setValue {i : InvId} {r : Response} {next : List Frame}
    (hev : (setValue s i r next).event = some ev) :
    (s.invocation i).promise = none ∧ ev = .completed i r := by
  simp only [setValue] at hev
  split at hev
  · rename_i hopen
    cases hev
    exact ⟨hopen, rfl⟩
  · cases hev

theorem of_fire {threads : List ServiceThread} {choice : Choice} {f : Frame}
    (he : fire s threads choice f = some e) (hev : e.event = some ev) : Emits s f ev := by
  revert he hev
  cases f with dsimp only [fire]
  | launch i pc =>
    fun_cases fireLaunch s choice i pc <;> rintro ⟨⟩ ⟨⟩
    exact published i _ _
  | sent i c pc => fun_cases fireSent s i c pc <;> rintro ⟨⟩ ⟨⟩
  | permission i k cause pc =>
    fun_cases firePermission s i k cause pc <;> rintro ⟨⟩ ⟨⟩
    rename_i hmatch
    obtain ⟨x, hx, rfl⟩ := map_eq_some_iff.mp hmatch
    exact granted i k cause x hx
  | responding i r pc =>
    fun_cases fireResponding s i r pc <;> rintro ⟨⟩ hev <;> try cases hev
    obtain ⟨hopen, rfl⟩ := of_setValue hev
    exact completed i r _ hopen
  | backup k i pc =>
    fun_cases fireBackup s choice k i pc
    case case11 =>
      intro he hev
      obtain ⟨r, hr, rfl⟩ := map_eq_some_iff.mp he
      obtain ⟨hopen, rfl⟩ := of_setValue hev
      exact completedBackup k i r hr hopen
    all_goals rintro ⟨⟩ ⟨⟩
  | completion i pc => fun_cases fireCompletion s i pc <;> rintro ⟨⟩ ⟨⟩
  | failing i pc =>
    fun_cases fireFailing s i pc <;> rintro ⟨⟩ ⟨⟩
    exact retried i
  | processResponse m => fun_cases fireProcess s m <;> rintro ⟨⟩ ⟨⟩
  | closing c pc => fun_cases fireClosing s choice c pc <;> rintro ⟨⟩ ⟨⟩
  | sweeping pc =>
    fun_cases fireSweeping s choice pc
    case case19 =>
      intro he hev
      obtain ⟨r, -, rfl⟩ := map_eq_some_iff.mp he
      cases hev
    all_goals rintro ⟨⟩ ⟨⟩
  | socket c pc => fun_cases fireSocket s choice c pc <;> rintro ⟨⟩ ⟨⟩
  | shutdown pc =>
    fun_cases fireShutdown s threads choice pc <;> rintro ⟨⟩ ⟨⟩
    · exact shutdownStarted ‹_›
    · exact shutdownReturned

end Emits

/-! ## The environment -/

inductive Enters (s : Client) : Frame → Prop
  | launch : Enters s (.launch s.created .select)
  | process (m : ServerMessage) (hm : m.requestId ∈ s.received) : Enters s (.processResponse m)
  | closing (c : ConnId) : Enters s (.closing c .cas)
  | sweeping : Enters s (.sweeping .start)
  | shutdown : Enters s (.shutdown .compareExchange)

/-- The connections and the shutdown sequence are as they were. -/
structure SameConnections (s s' : Client) : Prop where
  alive : s'.alive = s.alive
  writeQueue : s'.writeQueue = s.writeQueue
  drainBatch : s'.drainBatch = s.drainBatch
  writeInProgress : s'.writeInProgress = s.writeInProgress
  isRunning : s'.isRunning = s.isRunning
  ioJoined : s'.ioJoined = s.ioJoined
  responsesJoined : s'.responsesJoined = s.responsesJoined

/-- The environment leaves the existing invocations, the map and the connections
alone. -/
structure Outside (s : Client) (e : ServiceEffect) : Prop extends SameConnections s e.shared where
  created : s.created ≤ e.shared.created
  nextCallId : s.nextCallId ≤ e.shared.nextCallId
  invocation : ∀ i < s.created, e.shared.invocation i = s.invocation i
  new : ∀ i < e.shared.created, s.created ≤ i →
    ∃ request, e.shared.invocation i = newInvocation s request
  invocations : e.shared.invocations = s.invocations
  enters : ∀ g ∈ e.spawnedFrames, Enters s g
  event : ∀ ev, e.event = some ev → (∃ i, ev = .invoked i) ∨
    ∃ m, ev = .arrived m ∧ m.requestId ∈ s.received

namespace Outside

variable {s s' : Client} {g : Frame} {pool : Pool} {ev : Option Event} {e : ServiceEffect}

theorem currentId (h : Outside s e) {i : InvId} (hi : i < s.created) :
    e.shared.currentId i = s.currentId i := by
  rw [Client.currentId, h.invocation i hi, Client.currentId]

theorem invoke (s : Client) (request : Request) : Outside s {
    shared := s.invoke request
    spawned := [⟨.user, [.launch s.created .select]⟩]
    event := some (.invoked s.created) } where
  toSameConnections := ⟨rfl, rfl, rfl, rfl, rfl, rfl, rfl⟩
  created := Nat.le_succ _
  nextCallId := Nat.le_succ _
  invocation := by
    intro i hi
    simp [Client.invoke, hi.ne]
  new := by
    intro i hi hge
    rw [Nat.le_antisymm (Nat.lt_succ_iff.mp hi) hge]
    exact ⟨_, Function.update_self _ _ _⟩
  invocations := rfl
  enters := by
    intro g hg
    cases mem_singleton.mp hg
    exact Enters.launch
  event := by
    intro ev hev
    cases hev
    exact .inl ⟨_, rfl⟩

theorem spawn (hg : Enters s g) (hev : ∀ x, ev = some x → ∃ m, x = .arrived m ∧
    m.requestId ∈ s.received) :
    Outside s { shared := s, spawned := [⟨pool, [g]⟩], event := ev } where
  toSameConnections := ⟨rfl, rfl, rfl, rfl, rfl, rfl, rfl⟩
  created := le_refl _
  nextCallId := le_refl _
  invocation := fun _ _ => rfl
  new := fun _ hi hge => absurd hi hge.not_gt
  invocations := rfl
  enters := by
    intro g' hg'
    cases mem_singleton.mp hg'
    exact hg
  event := fun x hx => .inr (hev x hx)

theorem observe (received : List CorrId) (now : ℕ) :
    Outside s { shared := { s with received := received, now := now } } where
  toSameConnections := ⟨rfl, rfl, rfl, rfl, rfl, rfl, rfl⟩
  created := le_refl _
  nextCallId := le_refl _
  invocation := fun _ _ => rfl
  new := fun _ hi hge => absurd hi hge.not_gt
  invocations := rfl
  enters := fun _ hg => absurd hg not_mem_nil
  event := fun _ hev => by cases hev

theorem of_outside {choice : Choice} (he : outside s choice = some e) : Outside s e := by
  revert he
  fun_cases Spi.outside s choice
  case case2 =>
    intro he
    obtain ⟨entry, -, rfl⟩ := map_eq_some_iff.mp he
    exact observe (s.bytesId entry :: s.received) s.now
  all_goals rintro ⟨⟩
  · exact invoke s _
  · rename_i hm
    exact spawn (.process _ hm.1) fun x hx => ⟨_, (Option.some.inj hx).symm, hm.1⟩
  · exact spawn (.closing _) nofun
  · exact spawn (.closing _) nofun
  · exact spawn .sweeping nofun
  · exact observe s.received (s.now + 1)
  · exact spawn .shutdown nofun

/-- The environment causes no other events than these two. -/
theorem not_event {ev : Event} (h : Outside s e) (hev : e.event = some ev)
    (hinvoked : ∀ i, ev ≠ .invoked i) (harrived : ∀ m, ev ≠ .arrived m) : False := by
  rcases h.event ev hev with ⟨i, hi⟩ | ⟨m, hm, -⟩
  · exact hinvoked i hi
  · exact harrived m hm

end Outside

end HazelcastClient.Spi
