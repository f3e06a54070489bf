import HazelcastClient.Spi.OwnershipSteps
import HazelcastClient.Spi.Writes

/-!
# The ownership invariant holds in every run

One lemma for each step function says that it keeps `Sound`; `Sound.run` puts them
together. The last section says what the invariant means for a step: who does not
drive an invocation does not change its id, and erases its entry only from inside
`notify_connection_closed`.
-/

namespace HazelcastClient.Spi

open Interleaving List Option Function Quiet

namespace Sound

variable {s s' : Client} {f g : Frame} {others : List Frame} {e : ServiceEffect} {choice : Choice}
  {c : ConnId} {entry : OutboundEntry} {m : ServerMessage} {pc : Closing}
  {threads : List ServiceThread} {frames : List Frame} {i : InvId} {k : CorrId}
  {p : CorrId × InvId} {pc' : Closing}

attribute [local simp] Responding.owns Closing.items Effect.spawnedFrames Solid Fragile Fact.Holds
  Claim.Holds Cause.Answers Cause.resume

/-- The frame `g` drives what `f` drives, and what it relies on beyond `f` holds. -/
@[local simp] def Succeeds (s : Client) (f g : Frame) : Prop :=
  (∀ q ∈ facts g, q ∈ facts f ∨ q.Holds s) ∧ (∀ q ∈ claims g, q ∈ claims f ∨ q.Holds s) ∧
    (∀ p ∈ itemsOf g, p ∈ itemsOf f ∨ Owns s p.2 p.1 ∧ published (s.invocation p.2) = 1) ∧
    (∀ i, drives i g = drives i f) ∧ ∀ i pc, g = .launch i pc → ∃ pc', f = .launch i pc'

section

variable (h : Sound s (f :: others))

include h

/-- The rule for a step to one frame. -/
theorem quietTo (hq : Quiet s s') (hg : Succeeds s f g) : Sound s' ([g] ++ others) := by
  obtain ⟨hfacts, hclaims, hitems, htoken, hlaunch⟩ := hg
  refine h.quiet hq ?_ ?_ ?_ ?_
  · intro g' hg'
    rw [mem_singleton] at hg'
    subst hg'
    refine ⟨fun q hq => ?_, fun q hq => ?_⟩
    · exact (hfacts q hq).elim (h.solid f mem_cons_self q) id
    · exact (hclaims q hq).elim (h.fragile f mem_cons_self q) id
  · intro g' hg' p hp
    rw [mem_singleton] at hg'
    exact hitems p (hg' ▸ hp)
  · intro i
    rw [map_singleton, sum_singleton, htoken]
  · intro i pc hl
    exact hlaunch i pc (mem_singleton.mp hl).symm

theorem quietly (hg : Succeeds s f g) : Sound s ([g] ++ others) :=
  h.quietTo (refl s) hg

theorem quietEnd (hq : Quiet s s') (htoken : ∀ i, drives i f = 0) : Sound s' others := by
  rw [← nil_append others]
  exact h.quiet hq (by simp) (by simp) (fun i => (htoken i).symm) (by simp)

/-- The rule for a step to one frame that changes one invocation. -/
theorem mildTo {upd : Invocation → Invocation} (hm : Mild (s.invocation i) (upd (s.invocation i)))
    (htoken : published (upd (s.invocation i)) + drives i g + resolved (upd (s.invocation i)) =
      published (s.invocation i) + drives i f + resolved (s.invocation i))
    (hother : ∀ j, j ≠ i → drives j g = drives j f)
    (hfacts : ∀ q ∈ facts g, q.Holds (s.update i upd))
    (hclaims : ∀ q ∈ claims g, q.Holds (s.update i upd))
    (hlaunch : ∀ j pc, g = .launch j pc → ∃ pc', f = .launch j pc') (hitems : itemsOf g = []) :
    Sound (s.update i upd) ([g] ++ others) := by
  refine h.mild hm ?_ ?_ ?_ ?_ ?_
  · rw [map_singleton, sum_singleton, htoken]
  · intro j hj
    rw [map_singleton, sum_singleton, hother j hj]
  · intro g' hg'
    rw [mem_singleton] at hg'
    subst hg'
    exact ⟨hfacts, hclaims⟩
  · intro j pc hl
    exact hlaunch j pc (mem_singleton.mp hl).symm
  · intro g' hg'
    rw [mem_singleton.mp hg']
    exact hitems

end

/-! ## Sending -/

/-- The invariant after a step, with the frames of the others. -/
@[local simp] abbrev SoundAfter (e : ServiceEffect) (others : List Frame) : Prop :=
  Sound e.shared (e.frames ++ others)

theorem launch {pc : Launch} (h : Sound s (.launch i pc :: others))
    (he : fireLaunch s choice i pc = some e) : SoundAfter e others := by
  have hi : i < s.created := h.fact (.created i) (by simp)
  have hcount : Quiet s (s.update i fun v => { v with invokeCount := v.invokeCount + 1 }) :=
    update s i (by simp)
  revert he
  fun_cases fireLaunch s choice i pc <;> rintro ⟨⟩
  · refine h.mildTo (mild_copyMessage _) rfl (by simp) ?_ (by simp) (by simp) rfl
    intro q hq
    rw [facts, mem_singleton] at hq
    exact hq ▸ hi
  · exact h.quietTo hcount (by simp)
  · exact h.quietTo hcount (by simp)
  case case12 => exact h.register
  case case13 => exact h.publish
  all_goals exact h.quietly (by simp)

theorem quiet_enqueueWrite (hlt : entry.invocation < s.created)
    (hni : NotInitial (s.invocation entry.invocation)) :
    Quiet s (s.enqueueWrite c entry) := by
  refine { refl s with entries := ?_ }
  intro d x hx
  simp only [Client.enqueueWrite] at hx
  by_cases hd : d = c
  · subst hd
    rw [update_self] at hx
    simp only [mem_append, mem_singleton] at hx ⊢
    rcases hx with (hx | rfl) | hx
    · exact .inl (.inl hx)
    · exact .inr ⟨hlt, hni⟩
    · exact .inl (.inr hx)
  · rw [update_of_ne hd] at hx
    exact .inl hx

theorem sent {pc : Sent} (h : Sound s (.sent i c pc :: others)) (he : fireSent s i c pc = some e) :
    SoundAfter e others := by
  revert he
  fun_cases fireSent s i c pc <;> rintro ⟨⟩
  case case5 =>
    obtain ⟨hlt, hni⟩ := h.fact (.notInitial i) (by simp)
    exact h.quietTo (g := .socket c .flush) (quiet_enqueueWrite hlt hni) (by simp)
  all_goals exact h.quietly (by simp)

/-! ## Notifying -/

theorem published_of_holder {v : Invocation} (hv : NotInitial v) {x : Holder}
    (hx : v.sendConnection = some x) : published v = 1 := by
  match x, hx with
  | ⟨a, none⟩, hx => exact absurd hx (hv a)
  | ⟨a, some c⟩, hx => simp [published, hx]

theorem drives_resume (i j : InvId) (cause : Cause) :
    drives j (cause.resume i) = if i = j then 1 else 0 := by
  cases cause <;> simp

theorem permission {cause : Cause} {pc : Permission}
    (h : Sound s (.permission i k cause pc :: others))
    (he : firePermission s i k cause pc = some e) : SoundAfter e others := by
  revert he
  fun_cases firePermission s i k cause pc <;> rintro ⟨⟩
  case case2 x hx =>
    obtain ⟨hi, -⟩ := h.fact (.notInitial i) (by simp)
    have ha := h.base.address_lt i hi x hx
    exact h.quietly (by simpa using ha)
  case case3 a hk => exact h.quietly (by simp [hk])
  case case5 a hmatch =>
    obtain ⟨x, hx, hxa⟩ := map_eq_some_iff.mp hmatch
    obtain ⟨hi, hni⟩ := h.fact (.notInitial i) (by simp)
    have hanswers : cause.Answers k := h.fact (.answers k cause) (by simp)
    have hcur : s.currentId i = k := h.claim (.swap i k a) (by simp) x hx hxa
    have hpub := published_of_holder hni hx
    have hstill : (s.update i fun v => { v with sendConnection := none }).currentId i = k := by
      simpa [Client.currentId, Invocation.correlationId] using hcur
    show Sound (s.update i fun v => { v with sendConnection := none })
      ([cause.resume i] ++ others)
    refine h.mildTo (mild_takeConnection _) ?_ ?_ ?_ ?_ ?_ ?_
    · have htaken : published { s.invocation i with sendConnection := none } = 0 := rfl
      have hsame : resolved { s.invocation i with sendConnection := none } =
        resolved (s.invocation i) := rfl
      rw [htaken, hsame, hpub, drives_resume]
      simp
    · intro j hj
      rw [drives_resume, if_neg (Ne.symm hj), drives]
      all_goals simp
    · intro q hq
      have heq : q = .created i := by
        cases cause <;> simpa using hq
      exact heq ▸ hi
    · intro q hq
      cases cause with
      | response r =>
        have heq : q = .current i r.correlationId := by
          simpa using hq
        exact heq ▸ hstill.trans hanswers.symm
      | serverError x | connectionClosed c => simp at hq
    · cases cause <;> simp
    · cases cause <;> simp
  all_goals exact h.quietEnd (refl s) (by simp)

/-- A promise is satisfied by the thread that drives the invocation, or with the
pending response. -/
theorem complete (o : Outcome) (h : Sound s (f :: others)) (hi : i < s.created)
    (hf : drives i f = 1 ∨ drives i f = 0 ∧ (s.invocation i).pendingResponse ≠ none)
    (hother : ∀ j, j ≠ i → drives j f = 0) (hfacts : ∀ q ∈ facts g, q.Holds s ∨ q = .promise i)
    (hg : ∀ j, drives j g = 0) (hclaims : claims g = []) (hitems : itemsOf g = []) :
    Sound (s.update i (·.satisfy o)) ([g] ++ others) := by
  have hm := mild_satisfy (s.invocation i) o
  have hlater : Later s (s.update i (·.satisfy o)) := hm.later
  refine h.mildTo hm ?_ ?_ ?_ ?_ ?_ hitems
  · have hkeep : published ((s.invocation i).satisfy o) = published (s.invocation i) := rfl
    rw [hkeep, resolved_satisfy, hg]
    rcases hf with hf | ⟨hf, hp⟩
    · rw [hf, (h.exclusive hi hf).1, (h.exclusive hi hf).2.1]
    · rw [hf, resolved_of_pending hp]
  · intro j hj
    rw [hg, hother j hj]
  · intro q hq
    rcases hfacts q hq with hold | rfl
    · exact hlater.fact hold
    · refine ⟨hi, ?_⟩
      rw [Client.update_invocation_self]
      exact satisfy_promise_ne_none _ o
  · rw [hclaims]
    simp
  · rintro j pc rfl
    exact absurd (hg j) (by simp)

theorem responding {r : Response} {pc : Responding} (h : Sound s (.responding i r pc :: others))
    (he : fireResponding s i r pc = some e) : SoundAfter e others := by
  have hi : i < s.created :=
    h.solid _ mem_cons_self (.created i) (by cases hpc : pc.owns <;> simp [hpc, -Responding.owns])
  revert he
  fun_cases fireResponding s i r pc <;> rintro ⟨⟩
  case case3 =>
    have hq : Quiet s (s.update i fun v => { v with pendingResponseReceivedTime := s.now }) :=
      update s i (by simp)
    exact h.quietTo hq (by simp)
  case case4 =>
    have hq : Quiet s (s.update i fun v => { v with backupAcksExpected := r.numberOfBackups }) :=
      update s i (by simp)
    exact h.quietTo hq (by simp)
  case case5 =>
    have hd : drives i (.responding i r .storePending) = 1 := by simp
    obtain ⟨hpub, hres, -⟩ := h.exclusive hi hd
    show Sound (s.update i fun v => { v with pendingResponse := some r })
      ([.responding i r .recheck] ++ others)
    refine h.mildTo (mild_storePending _ r) ?_ ?_ ?_ (by simp) (by simp) rfl
    · have hkeep : published { s.invocation i with pendingResponse := some r } =
        published (s.invocation i) := rfl
      rw [hkeep, hpub, hres, hd, resolved_of_pending (by simp)]
      simp
    · intro j hj
      simp [Ne.symm hj]
    · intro q hq
      simp only [facts, Responding.owns, Bool.false_eq_true, if_false, mem_cons,
        not_mem_nil, or_false] at hq
      rcases hq with rfl | rfl
      · exact hi
      · exact ⟨hi, by simp⟩
  case case6 => exact h.quietEnd (refl s) (by simp)
  case case8 waited =>
    refine h.complete _ hi ?_ ?_ (by simp) (by simp) rfl rfl
    · cases waited with
      | false => exact .inl (by simp)
      | true =>
        have hp := h.fact (.pending i) (by simp)
        exact .inr ⟨by simp, hp.2⟩
    · intro j hj
      simp [Ne.symm hj]
  all_goals exact h.quietly (by simp)

theorem backup {pc : Backup} (h : Sound s (.backup k i pc :: others))
    (he : fireBackup s choice k i pc = some e) : SoundAfter e others := by
  revert he
  fun_cases fireBackup s choice k i pc
  case case11 =>
    intro he
    obtain ⟨hi, hp⟩ := h.fact (.pending i) (by simp)
    obtain ⟨r, -, rfl⟩ := map_eq_some_iff.mp he
    exact h.complete _ hi (.inr ⟨by simp, hp⟩) (by simp) (by simp) (by simp) rfl rfl
  all_goals rintro ⟨⟩
  · have hq : Quiet s
        (s.update i fun v => { v with backupAcksReceived := v.backupAcksReceived + 1 }) :=
      update s i (by simp)
    have ho : Owns s i k := h.fact (.owns i k) (by simp)
    exact h.quietTo hq (by simpa using ho.1)
  case case3 r hp =>
    have hi : i < s.created := h.fact (.created i) (by simp)
    exact h.quietly (by simp [hi, hp])
  case case2 | case7 | case9 => exact h.quietEnd (refl s) (by simp)
  all_goals exact h.quietly (by simp)

theorem completion {pc : Completion} (h : Sound s (.completion i pc :: others))
    (he : fireCompletion s i pc = some e) : SoundAfter e others := by
  obtain ⟨hi, hp⟩ := h.fact (.promise i) (by simp)
  revert he
  fun_cases fireCompletion s i pc <;> rintro ⟨⟩
  · exact h.quietly (by simp)
  · rename_i k
    have hcur : s.currentId i = k := h.claim (.current i k) (by simp)
    show Sound (s.deregister k) ([] ++ others)
    exact h.deregister (h.not_publishing (hcur ▸ h.base.owns hi) (.inr (resolved_of_promise hp)))
      (by simp) (by simp) (by simp) (by simp)

theorem unregistered_of_deregister (hb : Base s) (i : InvId) :
    Claim.Holds (s.deregister (s.currentId i)) (.unregistered i) := by
  intro l hl
  obtain ⟨hne, hreg⟩ := deregister_eq_some hl
  exact hne (hb.registered l i hreg).2.symm

theorem failing {pc : Failing} (h : Sound s (.failing i pc :: others))
    (he : fireFailing s i pc = some e) : SoundAfter e others := by
  have hi : i < s.created := h.fact (.created i) (by simp)
  have hd : drives i (.failing i pc) = 1 := by simp
  have herase (pc' : Failing)
      (hclaims : ∀ q ∈ claims (.failing i pc'), q.Holds (s.deregister (s.currentId i))) :
      Sound (s.deregister (s.currentId i)) ([.failing i pc'] ++ others) := by
    refine h.deregister (h.not_publishing (h.base.owns hi) (.inl hd)) ?_ (by simp) (by simp) (by simp)
    intro g hg
    rw [mem_singleton] at hg
    subst hg
    exact ⟨h.solid (.failing i pc) mem_cons_self, hclaims⟩
  revert he
  fun_cases fireFailing s i pc <;> rintro ⟨⟩
  case case1 | case5 => exact h.quietly (by simp)
  case case2 x k =>
    have hcur : s.currentId i = k := h.claim (.current i k) (by simp)
    subst hcur
    refine herase (.handle x) fun q hq => ?_
    rw [claims, mem_singleton] at hq
    exact hq ▸ unregistered_of_deregister h.base i
  case case3 x =>
    refine h.quietly ?_
    unfold decideException
    split_ifs <;> simp
  case case4 => exact h.forceNext
  case case6 x k =>
    have hcur : s.currentId i = k := h.claim (.current i k) (by simp)
    subst hcur
    exact herase (.setPromise x) (by simp)
  case case7 x =>
    have hm := mild_satisfy (s.invocation i) (.exception x)
    show Sound (s.update i (·.satisfy (.exception x))) ([] ++ others)
    refine h.mild hm ?_ ?_ (by simp) (by simp) (by simp)
    · have hkeep : published ((s.invocation i).satisfy (.exception x)) =
        published (s.invocation i) := rfl
      rw [hkeep, resolved_satisfy, hd, (h.exclusive hi hd).2.1]
      simp
    · intro j hj
      simp [Ne.symm hj]

theorem found (h : Sound s (.processResponse m :: others))
    (hreg : s.invocations m.requestId = some i) :
    Owns s i m.requestId ∧ i < s.created ∧ NotInitial (s.invocation i) := by
  obtain ⟨hi, hcur⟩ := h.base.registered _ i hreg
  have hrec : m.requestId ∈ s.received := h.fact (.received m.requestId) (by simp)
  refine ⟨hcur ▸ h.base.owns hi, hi, ?_⟩
  by_contra hinit
  exact h.base.unreceived i hi hinit _ (hcur.symm ▸ hrec)

theorem process (h : Sound s (.processResponse m :: others)) (he : fireProcess s m = some e) :
    SoundAfter e others := by
  revert he
  fun_cases fireProcess s m <;> rintro ⟨⟩
  · exact h.quietEnd (refl s) (by simp)
  all_goals obtain ⟨ho, hni⟩ := h.found ‹_›
  · exact h.quietly (by simpa using ⟨ho, hni⟩)
  · exact h.quietly (by simpa using ⟨ho, hni⟩)
  · exact h.quietly (by simpa [ServerMessage.requestId] using ho)

/-! ## Closing, sweeping, writing and shutting down -/

theorem waitsOn_eq_some (hp : waitsOn s c k = some p) :
    p.1 = k ∧ s.invocations k = some p.2 ∧
      ∃ a, (s.invocation p.2).sendConnection = some ⟨a, some c⟩ := by
  obtain ⟨i, hi, hif⟩ := bind_eq_some_iff.mp hp
  split at hif
  · rename_i hc
    cases hif
    obtain ⟨⟨a, d⟩, hx, hd⟩ := bind_eq_some_iff.mp hc
    refine ⟨rfl, hi, a, ?_⟩
    rw [hx]
    exact congrArg (fun y => some (Holder.mk a y)) hd
  · cases hif

theorem facts_closing_subset (c : ConnId) (hsub : pc.items ⊆ pc'.items) :
    facts (.closing c pc) ⊆ facts (.closing c pc') := by
  intro q hq
  obtain ⟨p, hp, hqp⟩ := mem_flatMap.mp hq
  exact mem_flatMap.mpr ⟨p, hsub hp, hqp⟩

theorem claims_closing_subset (c : ConnId) (hsub : pc.items ⊆ pc'.items) :
    claims (.closing c pc) ⊆ claims (.closing c pc') :=
  map_subset _ hsub

/-- An entry that a visit collects waits on the connection. -/
theorem owns_of_waitsOn (hb : Base s) (hp : waitsOn s c k = some p) :
    Owns s p.2 p.1 ∧ NotInitial (s.invocation p.2) ∧ published (s.invocation p.2) = 1 ∧
      Claim.Holds s (.waits c p.1 p.2) := by
  obtain ⟨hk, hreg, a, hx⟩ := waitsOn_eq_some hp
  obtain ⟨hi, hcur⟩ := hb.registered k p.2 hreg
  refine ⟨hk ▸ hcur ▸ hb.owns hi, ?_, by simp [published, hx], ?_⟩
  · intro b hb
    rw [hx] at hb
    cases hb
  · intro _ x hx'
    rw [hx] at hx'
    cases hx'
    rfl

theorem closing (h : Sound s (.closing c pc :: others)) (he : fireClosing s choice c pc = some e) :
    SoundAfter e others := by
  revert he
  fun_cases fireClosing s choice c pc <;> rintro ⟨⟩
  case case1 =>
    have hq : Quiet s { s with alive := s.alive.filter (· ≠ c) } := { refl s with }
    show Sound _ ([.closing c .startVisit, .socket c .drain] ++ others)
    exact h.quiet hq (by simp) (by simp) (by simp) (by simp)
  case case3 => exact h.quietly (by simp)
  case case4 todo toFail k =>
    have hnew (p : CorrId × InvId) (hp : p ∈ (waitsOn s c k).toList) :=
      owns_of_waitsOn h.base (mem_toList.mp hp)
    refine h.quietly ⟨?_, ?_, ?_, by simp, by simp⟩
    · intro q hq
      obtain ⟨p, hp, hqp⟩ := mem_flatMap.mp hq
      rcases mem_append.mp hp with hp | hp
      · exact .inl (mem_flatMap.mpr ⟨p, hp, hqp⟩)
      · obtain ⟨ho, hni, -, -⟩ := hnew p hp
        simp only [mem_cons, not_mem_nil, or_false] at hqp
        rcases hqp with rfl | rfl
        · exact .inr ho
        · exact .inr ⟨ho.1, hni⟩
    · intro q hq
      obtain ⟨p, hp, rfl⟩ := mem_map.mp hq
      rcases mem_append.mp hp with hp | hp
      · exact .inl (mem_map.mpr ⟨p, hp, rfl⟩)
      · exact .inr (hnew p hp).2.2.2
    · intro p hp
      rcases mem_append.mp hp with hp | hp
      · exact .inl hp
      · exact .inr ⟨(hnew p hp).1, (hnew p hp).2.2.1⟩
  case case5 =>
    exact h.quietly ⟨fun q hq => .inl hq, fun q hq => .inl hq, fun p hp => .inl hp, by simp,
      by simp⟩
  case case9 k i toFail =>
    show Sound s ([.closing c (.deregister k i), .closing c (.failNext toFail)] ++ others)
    have hsub (g : Frame)
        (hg : g ∈ [.closing c (.deregister k i), Frame.closing c (.failNext toFail)]) :
        ∃ pc', g = .closing c pc' ∧ pc'.items ⊆ (Closing.failNext ((k, i) :: toFail)).items := by
      simp only [mem_cons, not_mem_nil, or_false] at hg
      rcases hg with rfl | rfl
      · exact ⟨_, rfl, by simp⟩
      · exact ⟨_, rfl, by simp⟩
    refine h.quiet (refl s) ?_ ?_ (by simp) (by simp)
    · intro g hg
      obtain ⟨pc', rfl, hitems⟩ := hsub g hg
      exact ⟨fun q hq => h.solid _ mem_cons_self q (facts_closing_subset c hitems hq),
        fun q hq => h.fragile _ mem_cons_self q (claims_closing_subset c hitems hq)⟩
    · intro g hg p hp
      obtain ⟨pc', rfl, hitems⟩ := hsub g hg
      exact .inl (hitems hp)
  case case10 k i =>
    have hsolid := h.solid _ mem_cons_self
    have ho : Owns s i k := hsolid (.owns i k) (by simp)
    have hni := hsolid (.notInitial i) (by simp)
    have hsafe (j : InvId) (d : ConnId) : .launch j (.publish d k) ∉ others := by
      intro hmem
      have hmem' := mem_cons_of_mem (.closing c (.deregister k i)) hmem
      have hj : j < s.created := created_of_drives (h.solid _ hmem') (by simp)
      have hcur : s.currentId j = k := h.fragile _ hmem' (.current j k) (by simp)
      have hji := ho.eq_of_currentId hj hcur
      subst hji
      exact h.fresh _ mem_cons_self (k, j) (by simp) _ hmem' hcur
    show Sound (s.deregister k) ([.permission i k (.connectionClosed c) .load] ++ others)
    refine h.deregister hsafe ?_ (by simp) (by simp) (by simp)
    intro g hg
    rw [mem_singleton] at hg
    subst hg
    refine ⟨fun q hq => ?_, by simp⟩
    simp only [facts, mem_cons, not_mem_nil, or_false] at hq
    rcases hq with rfl | rfl | rfl
    · exact ho
    · exact hni
    · trivial
  all_goals exact h.quietEnd (refl s) (by simp)

theorem sweeping {pc : Sweeping} (h : Sound s (.sweeping pc :: others))
    (he : fireSweeping s choice pc = some e) : SoundAfter e others := by
  revert he
  fun_cases fireSweeping s choice pc
  case case19 k i =>
    intro he
    have ho : Owns s i k := h.fact (.owns i k) (by simp)
    obtain ⟨hi, hp⟩ := h.fact (.pending i) (by simp)
    obtain ⟨r, -, rfl⟩ := map_eq_some_iff.mp he
    exact h.complete _ hi (.inr ⟨by simp, hp⟩) (by simp) (by simpa using ho) (by simp) rfl rfl
  all_goals rintro ⟨⟩
  case case2 => exact h.quietly (g := .sweeping _) (by simp)
  case case3 todo k rest i hreg =>
    obtain ⟨hi, hcur⟩ := h.base.registered k i hreg
    have ho : Owns s i k := hcur ▸ h.base.owns hi
    show Sound s ([.sweeping (.readAcks k i), .sweeping (.visit (todo.filter (· ≠ k)))] ++ others)
    exact h.quiet (refl s) (by simpa using ho) (by simp) (by simp) (by simp)
  case case15 k i r hp =>
    have ho : Owns s i k := h.fact (.owns i k) (by simp)
    exact h.quietly (by simp [ho.1, hp])
  case case20 k i =>
    have ho : Owns s i k := h.fact (.owns i k) (by simp)
    have hp := h.fact (.promise i) (by simp)
    show Sound (s.deregister k) ([] ++ others)
    exact h.deregister (h.not_publishing ho (.inr (resolved_of_promise hp.2))) (by simp) (by simp)
      (by simp) (by simp)
  case case4 | case10 | case12 | case14 | case16 => exact h.quietEnd (refl s) (by simp)
  all_goals exact h.quietly (by simp)

theorem mem_update {queue : ConnId → List OutboundEntry} {d : ConnId} {entries : List OutboundEntry}
    {x : OutboundEntry} (hx : x ∈ Function.update queue c entries d) :
    d = c ∧ x ∈ entries ∨ x ∈ queue d := by
  by_cases hd : d = c
  · subst hd
    rw [update_self] at hx
    exact .inl ⟨rfl, hx⟩
  · rw [update_of_ne hd] at hx
    exact .inr hx

theorem quiet_startWrite (s : Client) (c : ConnId) : Quiet s (s.startWrite c) := by
  refine { refl s with entries := ?_ }
  intro d x hx
  refine .inl (mem_append.mpr ?_)
  rcases mem_append.mp hx with hx | hx <;> rcases mem_update hx with ⟨hd, hnew⟩ | hold
  · exact absurd hnew (by simp)
  · exact .inl hold
  · exact .inl (hd ▸ hnew)
  · exact .inr hold

theorem quiet_endWrite (s : Client) (c : ConnId) : Quiet s (s.endWrite c) := by
  refine { refl s with entries := ?_ }
  intro d x hx
  refine .inl (mem_append.mpr ?_)
  rcases mem_append.mp hx with hx | hx
  · exact .inl hx
  · rcases mem_update hx with ⟨-, hnew⟩ | hold
    · exact absurd hnew (by simp)
    · exact .inr hold

theorem quiet_drainQueue (s : Client) (c : ConnId) : Quiet s (s.drainQueue c) := by
  refine { refl s with entries := ?_ }
  intro d x hx
  refine .inl (mem_append.mpr ?_)
  rcases mem_append.mp hx with hx | hx
  · rcases mem_update hx with ⟨-, hnew⟩ | hold
    · exact absurd hnew (by simp)
    · exact .inl hold
  · exact .inr hx

theorem socket {pc : Socket} (h : Sound s (.socket c pc :: others))
    (he : fireSocket s choice c pc = some e) : SoundAfter e others := by
  revert he
  fun_cases fireSocket s choice c pc <;> rintro ⟨⟩
  · exact h.quietEnd (refl s) (by simp)
  · exact h.quietTo (quiet_startWrite s c) (by simp)
  · by_cases hempty : s.writeQueue c = []
    · simpa [hempty] using h.quietEnd (quiet_endWrite s c) (by simp)
    · simpa [hempty] using h.quietTo (g := .socket c .flush) (quiet_endWrite s c) (by simp)
  · show Sound (s.endWrite c) ([.closing c .cas, .socket c .drain] ++ others)
    exact h.quiet (quiet_endWrite s c) (by simp) (by simp) (by simp) (by simp)
  · exact h.quietEnd (quiet_drainQueue s c) (by simp)

theorem shutdown {pc : Shutdown} (h : Sound s (.shutdown pc :: others))
    (he : fireShutdown s threads choice pc = some e) : SoundAfter e others := by
  revert he
  fun_cases fireShutdown s threads choice pc <;> rintro ⟨⟩
  case case3 c =>
    show Sound s ([.closing c .cas, .shutdown .closeConnections] ++ others)
    exact h.quiet (refl s) (by simp) (by simp) (by simp) (by simp)
  case case2 | case12 => exact h.quietEnd { refl s with } (by simp)
  all_goals exact h.quietTo { refl s with } (by simp)

/-! ## Runs -/

theorem fire (h : Sound s (f :: others)) (he : fire s threads choice f = some e) :
    SoundAfter e others := by
  cases f with
  | launch i pc => exact h.launch he
  | sent i c pc => exact h.sent he
  | permission i k cause pc => exact h.permission he
  | responding i r pc => exact h.responding he
  | backup k i pc => exact h.backup he
  | completion i pc => exact h.completion he
  | failing i pc => exact h.failing he
  | processResponse m => exact h.process he
  | closing c pc => exact h.closing he
  | sweeping pc => exact h.sweeping he
  | socket c pc => exact h.socket he
  | shutdown pc => exact h.shutdown he

/-- A member can only have read an id of a message that has been queued. -/
theorem memberReads (h : Sound s frames) (hlt : entry.invocation < s.created)
    (hni : NotInitial (s.invocation entry.invocation)) :
    Sound { s with received := s.bytesId entry :: s.received } frames := by
  have hlater : Later s { s with received := s.bytesId entry :: s.received } :=
    { (refl s).later with received := fun k hk => mem_cons_of_mem _ hk }
  refine h.change hlater ?_ rfl rfl rfl
  refine { h.base with received_lt := ?_, unreceived := ?_ }
  · intro k hk
    rcases mem_cons.mp hk with rfl | hk
    · exact h.base.ids_lt _ hlt _
    · exact h.base.received_lt k hk
  · intro i hi hinit m hm
    rcases mem_cons.mp hm with heq | hm
    · by_cases hie : i = entry.invocation
      · exact hinit (hie ▸ hni)
      · exact h.base.disjoint i hi _ hlt hie _ _ heq
    · exact h.base.unreceived i hi hinit m hm

theorem outside (h : Sound s frames) (he : outside s choice = some e) :
    Sound e.shared (frames ++ e.spawnedFrames) := by
  revert he
  fun_cases Spi.outside s choice
  case case2 =>
    intro he
    obtain ⟨entry, hentry, rfl⟩ := map_eq_some_iff.mp he
    obtain ⟨hlt, hni⟩ := h.base.entries _ entry (mem_append_right _ (mem_of_getElem? hentry))
    simpa using h.memberReads hlt hni
  all_goals rintro ⟨⟩
  · exact h.invoke _
  case case4 hm => exact h.spawn (by simpa using hm.1)
  case case12 =>
    have hq : Quiet s { s with now := s.now + 1 } := { refl s with }
    simpa using h.change hq.later (hq.base h.base) rfl rfl rfl
  all_goals exact h.spawn (by simp)

theorem initial (settings : Settings) (alive : List ConnId) :
    Sound (start settings alive).shared (start settings alive).frames := by
  refine ⟨⟨?_, ?_, ?_, ?_, ?_, ?_, ?_⟩, ?_, ?_, ?_, ?_⟩ <;> simp [start, Config.frames]

end Sound

/-- The invariant holds in every state of every run. -/
theorem Sound.run {settings : Settings} {alive : List ConnId}
    {ok : ServiceConfig → Move Frame Choice → Prop} {events : List Event} {c : ServiceConfig}
    (h : Run service ok (start settings alive) events c) : Sound c.shared c.frames :=
  h.frameInvariant (P := fun _ s frames => Sound s frames) (fun hp hs => hs.perm hp)
    (Sound.initial settings alive) (fun _ _ hs _ hfire => hs.fire hfire)
    fun _ hs _ hout => hs.outside hout

/-! ## Other threads -/

namespace Sound

variable {s s' : Client} {f : Frame} {others : List Frame} {i : InvId} {k : CorrId}

theorem currentId_eq (hw : Write s f s') (hd : drives i f = 0) :
    s'.currentId i = s.currentId i := by
  rcases hw.currentId i with heq | ⟨rfl, -⟩
  · exact heq
  · exact absurd hd (by simp)

section

variable (h : Sound s (f :: others))

include h

/-- An entry is erased by the thread that drives the invocation, after the promise
has been satisfied, or by a closing connection. -/
theorem of_erases (hf : erases f = some (k, i)) :
    Owns s i k ∧ (drives i f = 1 ∨ (s.invocation i).promise ≠ none ∨
      ∃ c, f = .closing c (.deregister k i)) := by
  have hsolid := h.solid f mem_cons_self
  have hfragile := h.fragile f mem_cons_self
  match f, hf with
  | .completion j (.eraseKey l), hf =>
    cases hf
    obtain ⟨hi, hp⟩ := hsolid (.promise i) (by simp)
    have hcur : s.currentId i = k := hfragile (.current i k) (by simp)
    exact ⟨hcur ▸ h.base.owns hi, .inr (.inl hp)⟩
  | .failing j (.eraseKey _ l), hf | .failing j (.setErase _ l), hf =>
    cases hf
    have hi : i < s.created := hsolid (.created i) (by simp)
    have hcur : s.currentId i = k := hfragile (.current i k) (by simp)
    exact ⟨hcur ▸ h.base.owns hi, .inl (by simp)⟩
  | .closing c (.deregister l j), hf =>
    cases hf
    exact ⟨hsolid (.owns i k) (by simp [Closing.items]), .inr (.inr ⟨c, rfl⟩)⟩
  | .sweeping (.eraseKey l j), hf =>
    cases hf
    exact ⟨hsolid (.owns i k) (by simp),
      .inr (.inl (hsolid (.promise i) (by simp)).2)⟩

/-- The entry of an open invocation that another thread, or nobody, drives. -/
theorem registered_or (hw : Write s f s') (hi : i < s.created) (hd : drives i f = 0)
    (hopen : (s.invocation i).promise = none) (hreg : s.invocations (s.currentId i) = some i) :
    s'.invocations (s.currentId i) = some i ∨
      ∃ c, f = .closing c (.deregister (s.currentId i) i) := by
  rcases hw.invocations (s.currentId i) with heq | ⟨j, c, rfl, -⟩ | ⟨j, hf, -⟩
  · exact .inl (heq.trans hreg)
  · -- the thread that inserts the entry drives the invocation
    have hj : j < s.created := created_of_drives (h.solid _ mem_cons_self) (by simp)
    have hcur : s.currentId j = s.currentId i := h.claim (.current j (s.currentId i)) (by simp)
    have hji := (h.base.owns hi).eq_of_currentId hj hcur
    exact absurd hd (by simp [hji])
  · obtain ⟨ho, hcases⟩ := h.of_erases hf
    have hij : i = j := ho.eq_of_currentId hi rfl
    subst hij
    rcases hcases with hdrives | hset | hclosing
    · rw [hd] at hdrives
      exact absurd hdrives (by simp)
    · exact absurd hopen hset
    · exact .inr hclosing

theorem open_of_driven {g : Frame} (hg : g ∈ others) (hgi : drives i g = 1) :
    i < s.created ∧ drives i f = 0 ∧ (s.invocation i).promise = none := by
  have hi := created_of_drives (h.solid g (mem_cons_of_mem _ hg)) hgi
  have ht := h.token i hi
  have hle := weight_le_of_mem (drives i) hg
  rw [map_cons, sum_cons] at ht
  refine ⟨hi, by omega, ?_⟩
  by_contra hset
  rw [resolved_of_promise hset] at ht
  omega

theorem open_of_published (hi : i < s.created) (hp : published (s.invocation i) = 1) :
    drives i f = 0 ∧ (s.invocation i).promise = none := by
  have ht := h.token i hi
  refine ⟨h.idle hi (.inl hp) f mem_cons_self, ?_⟩
  by_contra hset
  rw [resolved_of_promise hset] at ht
  omega

end

end Sound

end HazelcastClient.Spi
