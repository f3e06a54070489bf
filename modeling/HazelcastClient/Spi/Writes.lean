import HazelcastClient.Spi.ControlFlow

/-!
# Who writes what

`Write s f s'` lists what the step of a frame `f` can do to the invocations and to
the map, with the place of the code that does it. Each field has few writers; the
lemmas about the fields say which ones. An invariant then only looks at the
writers of the fields that it mentions.
-/

namespace HazelcastClient.Spi

open Interleaving Option Invocation Client

/-- The entry that the frame is about to erase, and the invocation it means. -/
def erases : Frame → Option (CorrId × InvId)
  | .completion i (.eraseKey k) => some (k, i)
  | .failing i (.eraseKey _ k) => some (k, i)
  | .failing i (.setErase _ k) => some (k, i)
  | .closing _ (.deregister k i) => some (k, i)
  | .sweeping (.eraseKey k i) => some (k, i)
  | _ => none

/-- The invocation whose promise the frame is about to satisfy. -/
def satisfies : Frame → Option InvId
  | .responding i _ (.complete _) => some i
  | .backup _ i .complete => some i
  | .failing i (.setPromise _) => some i
  | .sweeping (.complete _ i) => some i
  | _ => none

/-- The states differ at most in the flags of the shutdown sequence. -/
structure SameData (s s' : Client) : Prop where
  created : s'.created = s.created
  nextCallId : s'.nextCallId = s.nextCallId
  invocation : s'.invocation = s.invocation
  invocations : s'.invocations = s.invocations
  alive : s'.alive = s.alive
  writeQueue : s'.writeQueue = s.writeQueue
  drainBatch : s'.drainBatch = s.drainBatch
  writeInProgress : s'.writeInProgress = s.writeInProgress

inductive Write (s : Client) : Frame → Client → Prop
  | plain (f : Frame) (s' : Client) (h : SameData s s')
      (hf : s' = s ∨ ∃ pc, f = .shutdown pc) : Write s f s'
  | count (i : InvId) : Write s (.launch i .select)
      (s.update i fun v => { v with invokeCount := v.invokeCount + 1 })
  | copy (i : InvId) : Write s (.launch i .retry) (s.update i copyMessage)
  | insert (i : InvId) (c : ConnId) (k : CorrId) :
      Write s (.launch i (.insert c k)) (s.register k i)
  | publish (i : InvId) (c : ConnId) (k : CorrId) :
      Write s (.launch i (.publish c k)) (s.publish i c)
  | take (i : InvId) (k : CorrId) (cause : Cause) (x : Holder)
      (hx : (s.invocation i).sendConnection = some x) :
      Write s (.permission i k cause (.cas x.address))
        (s.update i fun v => { v with sendConnection := none })
  | storeTime (i : InvId) (r : Response) : Write s (.responding i r .storeTime)
      (s.update i fun v => { v with pendingResponseReceivedTime := s.now })
  | storeExpected (i : InvId) (r : Response) : Write s (.responding i r .storeExpected)
      (s.update i fun v => { v with backupAcksExpected := r.numberOfBackups })
  | storePending (i : InvId) (r : Response) : Write s (.responding i r .storePending)
      (s.update i fun v => { v with pendingResponse := some r })
  | increment (k : CorrId) (i : InvId) : Write s (.backup k i .increment)
      (s.update i fun v => { v with backupAcksReceived := v.backupAcksReceived + 1 })
  | satisfy (f : Frame) (i : InvId) (o : Outcome) (hf : satisfies f = some i) :
      Write s f (s.update i (·.satisfy o))
  | erase (f : Frame) (k : CorrId) (i : InvId) (hf : erases f = some (k, i)) :
      Write s f (s.deregister k)
  | forceNext (i : InvId) : Write s (.failing i .execute) (s.forceNext i)
  | close (c : ConnId) (hc : c ∈ s.alive) :
      Write s (.closing c .cas) { s with alive := s.alive.filter (· ≠ c) }
  | enqueue (i : InvId) (c : ConnId) (m : ℕ) (k : CorrId) :
      Write s (.sent i c (.enqueue m k)) (s.enqueueWrite c ⟨k, i, m⟩)
  | startWrite (c : ConnId) (hc : s.writeInProgress c = false) :
      Write s (.socket c .flush) (s.startWrite c)
  | endWrite (c : ConnId) : Write s (.socket c .completed) (s.endWrite c)
  | drainQueue (c : ConnId) : Write s (.socket c .drain) (s.drainQueue c)

namespace Write

variable {s s' : Client} {f : Frame}

theorem refl (s : Client) (f : Frame) : Write s f s :=
  plain f s ⟨rfl, rfl, rfl, rfl, rfl, rfl, rfl, rfl⟩ (.inl rfl)

theorem flagged {s' : Client} {pc : Shutdown} (h : SameData s s') : Write s (.shutdown pc) s' :=
  plain _ _ h (.inr ⟨pc, rfl⟩)

theorem of_fire {threads : List ServiceThread} {choice : Choice} {e : ServiceEffect}
    (he : fire s threads choice f = some e) : Write s f e.shared := by
  revert he
  cases f with dsimp only [fire]
  | launch i pc =>
    fun_cases fireLaunch s choice i pc <;> rintro ⟨⟩
    · exact copy i
    · exact count i
    · exact count i
    case case12 c k => exact insert i c k
    case case13 c k => exact publish i c k
    all_goals exact refl s _
  | sent i c pc =>
    fun_cases fireSent s i c pc <;> rintro ⟨⟩
    case case5 m k => exact enqueue i c m k
    all_goals exact refl s _
  | permission i k cause pc =>
    fun_cases firePermission s i k cause pc <;> rintro ⟨⟩
    case case5 hmatch =>
      obtain ⟨x, hx, rfl⟩ := map_eq_some_iff.mp hmatch
      exact take i k cause x hx
    all_goals exact refl s _
  | responding i r pc =>
    fun_cases fireResponding s i r pc <;> rintro ⟨⟩
    case case3 => exact storeTime i r
    case case4 => exact storeExpected i r
    case case5 => exact storePending i r
    case case8 => exact satisfy _ i _ rfl
    all_goals exact refl s _
  | backup k i pc =>
    fun_cases fireBackup s choice k i pc
    case case11 =>
      intro he
      obtain ⟨r, -, rfl⟩ := map_eq_some_iff.mp he
      exact satisfy _ i _ rfl
    all_goals rintro ⟨⟩
    · exact increment k i
    all_goals exact refl s _
  | completion i pc =>
    fun_cases fireCompletion s i pc <;> rintro ⟨⟩
    · exact refl s _
    · exact erase _ _ i rfl
  | failing i pc =>
    fun_cases fireFailing s i pc <;> rintro ⟨⟩
    · exact refl s _
    · exact erase _ _ i rfl
    · exact refl s _
    · exact forceNext i
    · exact refl s _
    · exact erase _ _ i rfl
    · exact satisfy _ i _ rfl
  | processResponse m => fun_cases fireProcess s m <;> rintro ⟨⟩ <;> exact refl s _
  | closing c pc =>
    fun_cases fireClosing s choice c pc <;> rintro ⟨⟩
    case case1 hc => exact close c hc
    case case10 k i => exact erase _ k i rfl
    all_goals exact refl s _
  | sweeping pc =>
    fun_cases fireSweeping s choice pc
    case case19 k i =>
      intro he
      obtain ⟨r, -, rfl⟩ := map_eq_some_iff.mp he
      exact satisfy _ i _ rfl
    all_goals rintro ⟨⟩
    case case20 k i => exact erase _ k i rfl
    all_goals exact refl s _
  | socket c pc =>
    fun_cases fireSocket s choice c pc <;> rintro ⟨⟩
    · exact refl s _
    · rename_i hidle
      exact startWrite c (by simpa using (not_or.mp hidle).1)
    · exact endWrite c
    · exact endWrite c
    · exact drainQueue c
  | shutdown pc =>
    fun_cases fireShutdown s threads choice pc <;> rintro ⟨⟩ <;>
      exact flagged ⟨rfl, rfl, rfl, rfl, rfl, rfl, rfl, rfl⟩

/-! ## The writers of each field -/

theorem created (h : Write s f s') : s'.created = s.created := by
  cases h with
  | plain _ _ h => exact h.created
  | _ => rfl

theorem nextCallId_le (h : Write s f s') : s.nextCallId ≤ s'.nextCallId := by
  cases h with
  | plain _ _ h => exact h.nextCallId.ge
  | forceNext i => exact Nat.le_succ _
  | _ => exact le_refl _

/-- What a step can do to the invocation `i`. -/
inductive Change (s : Client) (i : InvId) : Frame → Invocation → Prop
  | count : Change s i (.launch i .select)
      { s.invocation i with invokeCount := (s.invocation i).invokeCount + 1 }
  | copy : Change s i (.launch i .retry) (s.invocation i).copyMessage
  | publish (c : ConnId) (k : CorrId) : Change s i (.launch i (.publish c k))
      ((s.invocation i).setSendConnection ⟨s.nextAddress, some c⟩)
  | take (k : CorrId) (cause : Cause) (x : Holder)
      (hx : (s.invocation i).sendConnection = some x) :
      Change s i (.permission i k cause (.cas x.address))
        { s.invocation i with sendConnection := none }
  | storeTime (r : Response) : Change s i (.responding i r .storeTime)
      { s.invocation i with pendingResponseReceivedTime := s.now }
  | storeExpected (r : Response) : Change s i (.responding i r .storeExpected)
      { s.invocation i with backupAcksExpected := r.numberOfBackups }
  | storePending (r : Response) : Change s i (.responding i r .storePending)
      { s.invocation i with pendingResponse := some r }
  | increment (k : CorrId) : Change s i (.backup k i .increment)
      { s.invocation i with backupAcksReceived := (s.invocation i).backupAcksReceived + 1 }
  | satisfy (f : Frame) (o : Outcome) (hf : satisfies f = some i) :
      Change s i f ((s.invocation i).satisfy o)
  | forceNext : Change s i (.failing i .execute) ((s.invocation i).setCorrelationId s.nextCallId)

theorem change_update {j : InvId} {g : Invocation → Invocation}
    (h : Change s j f (g (s.invocation j))) (i : InvId) :
    (s.update j g).invocation i = s.invocation i ∨
      ∃ v, (s.update j g).invocation i = v ∧ Change s i f v := by
  by_cases hi : i = j
  · subst hi
    exact .inr ⟨_, update_invocation_self s i g, h⟩
  · exact .inl (update_invocation_of_ne s g hi)

section

variable (h : Write s f s') (i : InvId)

include h

theorem invocation :
    s'.invocation i = s.invocation i ∨ ∃ v, s'.invocation i = v ∧ Change s i f v := by
  cases h with
  | plain _ _ h => exact .inl (by rw [h.invocation])
  | count j => exact change_update .count i
  | copy j => exact change_update .copy i
  | publish j c k => exact change_update (g := (·.setSendConnection _)) (.publish c k) i
  | take j k cause x hx => exact change_update (.take k cause x hx) i
  | storeTime j r => exact change_update (.storeTime r) i
  | storeExpected j r => exact change_update (.storeExpected r) i
  | storePending j r => exact change_update (.storePending r) i
  | increment k j => exact change_update (.increment k) i
  | satisfy _ j o hf => exact change_update (.satisfy f o hf) i
  | forceNext j => exact change_update (g := (·.setCorrelationId _)) .forceNext i
  | insert | erase | close | enqueue | startWrite | endWrite | drainQueue => exact .inl rfl

theorem currentId : s'.currentId i = s.currentId i ∨
    f = .failing i .execute ∧ s'.currentId i = s.nextCallId := by
  unfold Client.currentId
  rcases h.invocation i with heq | ⟨v, hv, hchange⟩
  · exact .inl (by rw [heq])
  · rw [hv]
    cases hchange with
    | copy => exact .inl (by simp [copyMessage, correlationId])
    | forceNext =>
      exact .inr ⟨rfl, by simp [setCorrelationId, correlationId]⟩
    | _ => exact .inl rfl

theorem clientMessage_le : (s.invocation i).clientMessage ≤ (s'.invocation i).clientMessage := by
  rcases h.invocation i with heq | ⟨v, hv, hchange⟩
  · rw [heq]
  · rw [hv]
    cases hchange with
    | copy => exact Nat.le_succ _
    | _ => exact le_refl _

/-- A message object that has been used keeps its id, except for the current one
when `execute` writes into it. -/
theorem correlationIds {i : InvId} {m : ℕ} (hm : m ≤ (s.invocation i).clientMessage) :
    (s'.invocation i).correlationIds m = (s.invocation i).correlationIds m ∨
      f = .failing i .execute ∧ m = (s.invocation i).clientMessage := by
  rcases h.invocation i with heq | ⟨v, hv, hchange⟩
  · exact .inl (by rw [heq])
  · rw [hv]
    cases hchange with
    | copy => exact .inl (Function.update_of_ne (Nat.lt_succ_of_le hm).ne _ _)
    | forceNext =>
      by_cases hcur : m = (s.invocation i).clientMessage
      · exact .inr ⟨rfl, hcur⟩
      · exact .inl (Function.update_of_ne hcur _ _)
    | _ => exact .inl rfl

theorem sendConnection :
    (s'.invocation i).sendConnection = (s.invocation i).sendConnection ∨
      (∃ c k, f = .launch i (.publish c k) ∧ s' = s.publish i c) ∨
      ∃ k cause x, f = .permission i k cause (.cas x.address) ∧
        (s.invocation i).sendConnection = some x ∧ (s'.invocation i).sendConnection = none := by
  rcases h.invocation i with heq | ⟨v, hv, hchange⟩
  · exact .inl (by rw [heq])
  · rw [hv]
    cases hchange with
    | publish c k =>
      cases h with
      | plain _ _ _ hf =>
        rcases hf with rfl | ⟨pc, hf⟩
        · exact .inl (congrArg sendConnection hv).symm
        · cases hf
      | publish => exact .inr (.inl ⟨c, k, rfl, rfl⟩)
      | satisfy _ _ _ hf | erase _ _ _ hf => cases hf
    | take k cause x hx => exact .inr (.inr ⟨k, cause, x, rfl, hx, rfl⟩)
    | _ => exact .inl rfl

theorem pendingResponse :
    (s'.invocation i).pendingResponse = (s.invocation i).pendingResponse ∨
      ∃ r, f = .responding i r .storePending ∧ (s'.invocation i).pendingResponse = some r := by
  rcases h.invocation i with heq | ⟨v, hv, hchange⟩
  · exact .inl (by rw [heq])
  · rw [hv]
    cases hchange with
    | storePending r => exact .inr ⟨r, rfl, rfl⟩
    | _ => exact .inl rfl

theorem promise :
    (s'.invocation i).promise = (s.invocation i).promise ∨
      satisfies f = some i ∧
        ∃ o, (s'.invocation i).promise = ((s.invocation i).satisfy o).promise := by
  rcases h.invocation i with heq | ⟨v, hv, hchange⟩
  · exact .inl (by rw [heq])
  · rw [hv]
    cases hchange with
    | satisfy _ o hf => exact .inr ⟨hf, o, rfl⟩
    | _ => exact .inl rfl

theorem promise_ne_none {i : InvId} (hi : (s.invocation i).promise ≠ none) :
    (s'.invocation i).promise ≠ none := by
  rcases h.promise i with heq | ⟨-, o, heq⟩
  · rwa [heq]
  · rw [heq, Invocation.satisfy]
    cases hp : (s.invocation i).promise with
    | none => exact absurd hp hi
    | some o' => simp

theorem promise_eq_none {i : InvId} (hi : (s'.invocation i).promise = none) :
    (s.invocation i).promise = none :=
  not_not.mp fun hset => h.promise_ne_none hset hi

theorem backupAcksReceived :
    (s'.invocation i).backupAcksReceived = (s.invocation i).backupAcksReceived ∨
      ∃ k, f = .backup k i .increment ∧
        (s'.invocation i).backupAcksReceived = (s.invocation i).backupAcksReceived + 1 := by
  rcases h.invocation i with heq | ⟨v, hv, hchange⟩
  · exact .inl (by rw [heq])
  · rw [hv]
    cases hchange with
    | increment k => exact .inr ⟨k, rfl, rfl⟩
    | _ => exact .inl rfl

theorem backupAcksExpected :
    (s'.invocation i).backupAcksExpected = (s.invocation i).backupAcksExpected ∨
      ∃ r, f = .responding i r .storeExpected ∧
        (s'.invocation i).backupAcksExpected = r.numberOfBackups := by
  rcases h.invocation i with heq | ⟨v, hv, hchange⟩
  · exact .inl (by rw [heq])
  · rw [hv]
    cases hchange with
    | storeExpected r => exact .inr ⟨r, rfl, rfl⟩
    | _ => exact .inl rfl

theorem invocations (k : CorrId) :
    s'.invocations k = s.invocations k ∨
      (∃ i c, f = .launch i (.insert c k) ∧ s'.invocations k = some i) ∨
      ∃ i, erases f = some (k, i) ∧ s'.invocations k = none := by
  cases h with
  | plain _ _ h => exact .inl (by rw [h.invocations])
  | insert i c l =>
    by_cases hk : k = l
    · subst hk
      exact .inr (.inl ⟨i, c, rfl, register_invocations_self s k i⟩)
    · exact .inl (register_invocations_of_ne s i hk)
  | erase _ l i hf =>
    by_cases hk : k = l
    · subst hk
      exact .inr (.inr ⟨i, hf, deregister_invocations_self s k⟩)
    · exact .inl (deregister_invocations_of_ne s hk)
  | _ => exact .inl rfl

theorem invocations_eq (hinsert : ∀ i c k, f ≠ .launch i (.insert c k)) (herase : erases f = none) :
    s'.invocations = s.invocations := by
  funext k
  rcases h.invocations k with heq | ⟨i, c, hf, -⟩ | ⟨i, hf, -⟩
  · exact heq
  · exact absurd hf (hinsert i c k)
  · rw [herase] at hf
    cases hf

/-- A connection only dies, by the compare-exchange of `close`. -/
theorem alive : s'.alive = s.alive ∨
    ∃ c, f = .closing c .cas ∧ c ∈ s.alive ∧
      s' = { s with alive := s.alive.filter (· ≠ c) } := by
  cases h with
  | plain _ _ h => exact .inl h.alive
  | close c hc => exact .inr ⟨c, rfl, hc, rfl⟩
  | _ => exact .inl rfl

theorem mem_alive {c : ConnId} (hc : c ∈ s'.alive) : c ∈ s.alive := by
  rcases h.alive with heq | ⟨d, -, -, rfl⟩
  · exact heq ▸ hc
  · exact (List.mem_filter.mp hc).1

end

end Write

end HazelcastClient.Spi
