import HazelcastClient.Spi.Permission

/-!
# Requests in the write queue

An entry of the write queue refers to the message object of the invocation, while
`execute` writes the next correlation id into that object before `retry` makes a
copy. An entry that is still queued or being written then carries an id that it
was not queued with (`queued_restamped`). In runs in which `execute` only finds
messages that have left the queues, every entry keeps its id.
-/

namespace HazelcastClient.Spi

open Interleaving List Function

/-- The entry is in a write queue, or in a batch that is being written. -/
def Buffered (s : Client) (entry : OutboundEntry) : Prop :=
  ∃ c, entry ∈ s.writeQueue c ∨ s.writeInProgress c = true ∧ entry ∈ s.drainBatch c

/-- The entry is buffered, or a thread is about to queue it. -/
def Outbound (s : Client) (frames : List Frame) (entry : OutboundEntry) : Prop :=
  Buffered s entry ∨
    ∃ c, .sent entry.invocation c (.enqueue entry.message entry.correlationId) ∈ frames

/-- `execute` writes the next id into a message that no outbound entry refers to. -/
def StampsUnshared (c : ServiceConfig) : Move Frame Choice → Prop
  | .frame (.failing i .execute) _ =>
    ∀ k, ¬ Outbound c.shared c.frames ⟨k, i, (c.shared.invocation i).clientMessage⟩
  | _ => True

/-- The bytes of the entry carry its correlation id. -/
structure Stamped (s : Client) (entry : OutboundEntry) : Prop where
  le : entry.message ≤ (s.invocation entry.invocation).clientMessage
  id : s.bytesId entry = entry.correlationId

structure Outgoing (s : Client) (frames : List Frame) : Prop where
  message : ∀ i c m, .sent i c (.readId m) ∈ frames → m ≤ (s.invocation i).clientMessage
  stamped : ∀ entry, Outbound s frames entry → Stamped s entry

variable {entry : OutboundEntry} {s s' : Client}

theorem Outbound.perm {s : Client} {frames frames' : List Frame} (h : Outbound s frames entry)
    (hp : frames.Perm frames') : Outbound s frames' entry :=
  h.imp_right fun ⟨c, hc⟩ => ⟨c, hp.mem_iff.mp hc⟩

theorem Write.buffered {f : Frame} (h : Write s f s') (hb : Buffered s' entry) :
    Buffered s entry ∨
      ∃ c, f = .sent entry.invocation c (.enqueue entry.message entry.correlationId) := by
  obtain ⟨d, hd⟩ := hb
  cases h with
  | plain _ _ h =>
    rw [h.writeQueue, h.writeInProgress, h.drainBatch] at hd
    exact .inl ⟨d, hd⟩
  | enqueue i c m k =>
    by_cases hdc : d = c
    · subst hdc
      simp only [Client.enqueueWrite, update_self, mem_append,
        mem_singleton] at hd
      rcases hd with (hold | rfl) | hbatch
      · exact .inl ⟨d, .inl hold⟩
      · exact .inr ⟨d, rfl⟩
      · exact .inl ⟨d, .inr hbatch⟩
    · simp only [Client.enqueueWrite, update_of_ne hdc] at hd
      exact .inl ⟨d, hd⟩
  | startWrite c | endWrite c | drainQueue c =>
    refine .inl ⟨d, ?_⟩
    by_cases hdc : d = c
    · subst hdc
      simp only [Client.startWrite, Client.endWrite, Client.drainQueue, update_self,
        not_mem_nil, true_and, and_false, or_false, false_or] at hd
      tauto
    · simpa only [Client.startWrite, Client.endWrite, Client.drainQueue,
        update_of_ne hdc] using hd
  | _ => exact .inl ⟨d, hd⟩

theorem Stamped.write {f : Frame} (h : Stamped s entry) (hw : Write s f s')
    (hkeep : ¬ (f = .failing entry.invocation .execute ∧
      entry.message = (s.invocation entry.invocation).clientMessage)) : Stamped s' entry where
  le := h.le.trans (hw.clientMessage_le _)
  id := ((hw.correlationIds h.le).resolve_right hkeep).trans h.id

theorem Outside.buffered {s : Client} {e : ServiceEffect} (h : Outside s e)
    (hb : Buffered e.shared entry) : Buffered s entry := by
  unfold Buffered at hb ⊢
  rw [h.writeQueue, h.writeInProgress, h.drainBatch] at hb
  exact hb

namespace Outgoing

variable {s : Client} {f : Frame} {others frames frames' : List Frame}
  {threads : List ServiceThread} {choice : Choice} {e : ServiceEffect} {c : ConnId}

theorem perm (h : Outgoing s frames) (hp : frames.Perm frames') : Outgoing s frames' where
  message := fun i c m hmem => h.message i c m (hp.mem_iff.mpr hmem)
  stamped := fun entry ho => h.stamped entry (ho.perm hp.symm)

section

variable (h : Outgoing s (f :: others))

include h

theorem message_fire (he : fire s threads choice f = some e) {i : InvId} {m : ℕ}
    (hmem : .sent i c (.readId m) ∈ e.frames ++ others) :
    m ≤ (e.shared.invocation i).clientMessage := by
  rcases mem_append.mp hmem with hnew | hold
  · cases Follows.of_fire he hnew with
    | sent _ _ pc =>
      cases pc with
      | recheck k =>
        simp only [fire, fireSent] at he
        split at he <;> cases he <;> cases mem_singleton.mp hnew
      | write =>
        cases he
        cases mem_singleton.mp hnew
        exact le_refl _
      | readId m' | enqueue m' k =>
        cases he
        cases mem_singleton.mp hnew
  · exact (h.message i c m (mem_cons_of_mem f hold)).trans
      ((Write.of_fire he).clientMessage_le i)

/-- A new outbound entry has just been stamped by the thread that reads its id. -/
theorem stamped_of_new (he : fire s threads choice f = some e) {entry : OutboundEntry}
    (hnew : .sent entry.invocation c (.enqueue entry.message entry.correlationId) ∈
      e.frames) : Stamped e.shared entry := by
  obtain ⟨k, i, m⟩ := entry
  cases Follows.of_fire he hnew with
  | sent _ _ pc =>
    cases pc with
    | recheck l =>
      simp only [fire, fireSent] at he
      split at he <;> cases he <;> cases mem_singleton.mp hnew
    | write | enqueue m' l =>
      cases he
      cases mem_singleton.mp hnew
    | readId m' =>
      have hm := h.message i c m' mem_cons_self
      cases he
      have heq := mem_singleton.mp hnew
      simp only [Frame.sent.injEq, Sent.enqueue.injEq, true_and] at heq
      obtain ⟨rfl, hk⟩ := heq
      exact ⟨hm, hk.symm⟩

theorem fire
    (hok : ∀ i, f = .failing i .execute →
      ∀ k, ¬ Outbound s (f :: others) ⟨k, i, (s.invocation i).clientMessage⟩)
    (he : fire s threads choice f = some e) :
    Outgoing e.shared (e.frames ++ others) where
  message := fun i c m hmem => h.message_fire he hmem
  stamped := by
    intro entry ho
    have hw := Write.of_fire he
    -- an entry that was outbound before is not the one that is being restamped
    have hold : Outbound s (f :: others) entry → Stamped e.shared entry := by
      intro hout
      refine (h.stamped entry hout).write hw ?_
      rintro ⟨hf, hm⟩
      refine hok _ hf entry.correlationId ?_
      rw [← hm]
      exact hout
    rcases ho with hb | ⟨c, hmem⟩
    · rcases hw.buffered hb with hb₀ | ⟨c, hf⟩
      · exact hold (.inl hb₀)
      · exact hold (.inr ⟨c, hf ▸ mem_cons_self⟩)
    · rcases mem_append.mp hmem with hnew | hother
      · exact h.stamped_of_new he hnew
      · exact hold (.inr ⟨c, mem_cons_of_mem f hother⟩)

end

theorem outside (h : Outgoing s frames) (hs : Sound s frames) (he : outside s choice = some e) :
    Outgoing e.shared (frames ++ e.spawnedFrames) := by
  have ho := Outside.of_outside he
  refine ⟨?_, ?_⟩
  · intro i c m hmem
    rcases mem_append.mp hmem with hold | hnew
    · have hi := (hs.solid _ hold (.notInitial i) (by simp)).1
      rw [ho.invocation i hi]
      exact h.message i c m hold
    · cases ho.enters _ hnew
  · intro entry hout
    have hboth : Outbound s frames entry ∧ entry.invocation < s.created := by
      rcases hout with hb | ⟨c, hmem⟩
      · obtain ⟨c, hc⟩ := ho.buffered hb
        refine ⟨.inl ⟨c, hc⟩, (hs.base.entries c entry ?_).1⟩
        exact mem_append.mpr (hc.imp_right And.right)
      · rcases mem_append.mp hmem with hold | hnew
        · exact ⟨.inr ⟨c, hold⟩, (hs.solid _ hold (.notInitial _) (by simp)).1⟩
        · cases ho.enters _ hnew
    obtain ⟨hout₀, hi⟩ := hboth
    obtain ⟨hle, hid⟩ := h.stamped entry hout₀
    constructor
    · rw [ho.invocation _ hi]
      exact hle
    · rw [Client.bytesId, ho.invocation _ hi]
      exact hid

theorem initial (settings : Settings) (alive : List ConnId) :
    Outgoing (start settings alive).shared (start settings alive).frames := by
  refine ⟨?_, ?_⟩ <;> simp [start, Config.frames, Outbound, Buffered]

theorem run {settings : Settings} {alive : List ConnId} {events : List Event} {c : ServiceConfig}
    (h : Run service StampsUnshared (start settings alive) events c) :
    Outgoing c.shared c.frames := by
  refine h.frameInvariant (P := fun _ s frames => Outgoing s frames) (fun hp ho => ho.perm hp)
    (initial settings alive) ?_ fun hrun ho _ he => ho.outside (Sound.run hrun) he
  intro es c₁ f choice others threads e hrun hframes ho hok he
  refine ho.fire ?_ he
  rintro i rfl k hout
  exact hok k (hout.perm hframes.symm)

end Outgoing

/-- A request keeps its correlation id until it is written. -/
theorem queued_stamped {settings : Settings} {alive : List ConnId} {events : List Event}
    {c : ServiceConfig} (h : Run service StampsUnshared (start settings alive) events c) :
    ∀ entry, Buffered c.shared entry → c.shared.bytesId entry = entry.correlationId :=
  fun entry hb => ((Outgoing.run h).stamped entry (.inl hb)).id

/-- No invocation is told of an error. -/
def neverFails : Move Frame Choice → Bool
  | .frame (.failing _ _) _ => false
  | _ => true

/-- A request is queued, and its batch is being written. -/
theorem queued_stamped_flushed :
    ∃ events c, Run service StampsUnshared (start {} [7]) events c ∧
      Buffered c.shared ⟨1, 0, 0⟩ ∧ c.shared.bytesId ⟨1, 0, 0⟩ = 1 := by
  have hexec : ∃ events c, service.execAll (fun _ mv => neverFails mv) (start {} [7])
      (.outside (.invoke {}) :: sendPicks 0 7 ++ [.thread 1 .go]) = some (events, c) ∧
      c.shared.writeInProgress 7 = true ∧ c.shared.drainBatch 7 = [⟨1, 0, 0⟩] :=
    ⟨_, _, rfl, rfl, rfl⟩
  obtain ⟨events, c, hexec, hwrite, hbatch⟩ := hexec
  have hrun : Run service StampsUnshared (start {} [7]) events c := by
    refine (Run.of_execAll hexec).mono fun _ mv hmv => ?_
    cases mv with
    | outside _ => trivial
    | frame f _ =>
      cases f with
      | failing _ _ => cases hmv
      | _ => trivial
  have hb : Buffered c.shared ⟨1, 0, 0⟩ := ⟨7, .inr ⟨hwrite, by simp [hbatch]⟩⟩
  exact ⟨events, c, hrun, hb, queued_stamped hrun _ hb⟩

/-- The connection is closed while the request is in its write queue. The request
may be retried, and `execute` writes the next id into the queued message. -/
def restampedPicks : List (Pick Choice) :=
  .outside (.invoke { isRetryable := true }) :: sendPicks 0 7 ++
    [.outside (.close 7), .thread 2 .go, .thread 2 .go, .thread 2 (.key 1)] ++
    List.replicate 10 (.thread 2 .go)

theorem queued_restamped :
    ∃ events c entry, Run service Always (start {} [7]) events c ∧
      entry ∈ c.shared.writeQueue 7 ∧ c.shared.bytesId entry ≠ entry.correlationId := by
  have hexec : ∃ events c, service.execAll (fun _ _ => true) (start {} [7]) restampedPicks =
      some (events, c) ∧ c.shared.writeQueue 7 = [⟨1, 0, 0⟩] ∧ c.shared.bytesId ⟨1, 0, 0⟩ = 2 :=
    ⟨_, _, rfl, rfl, rfl⟩
  obtain ⟨events, c, hexec, hqueue, hbytes⟩ := hexec
  exact ⟨events, c, ⟨1, 0, 0⟩, (Run.of_execAll hexec).always,
    by simp [hqueue], by simp [hbytes]⟩

end HazelcastClient.Spi
