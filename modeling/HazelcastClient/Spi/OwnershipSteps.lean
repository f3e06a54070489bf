import HazelcastClient.Spi.Ownership

/-!
# What the ownership invariant survives

Most steps read, or change fields that no fact of `Sound` mentions (`Sound.quiet`).
The others are taken one kind of change at a time: an update of one invocation, an
erased entry of the map, a new entry, a stored connection, a fresh correlation id,
and the steps of the environment.
-/

namespace HazelcastClient.Spi

open Interleaving List Client Invocation

/-- What `g` leaves as it is, an update with `g` does. -/
theorem Client.update_field {β : Type} (s : Client) (i : InvId) {g : Invocation → Invocation}
    (field : Invocation → β) (hg : ∀ v, field (g v) = field v) (j : InvId) :
    field ((s.update i g).invocation j) = field (s.invocation j) := by
  by_cases hj : j = i
  · rw [hj, update_invocation_self, hg]
  · rw [update_invocation_of_ne s g hj]

/-- At most one invocation gets new ids, the next one that is free, and the entries of the
map stay what they are. -/
theorem Later.base {s s' : Client} {i : InvId} (h : Later s s') (hb : Base s)
    (hreceived : s'.received = s.received)
    (hids : ∀ j < s'.created, ∀ m, j = i ∧ s.nextCallId < s'.nextCallId ∧
        (s'.invocation j).correlationIds m = s.nextCallId ∨
      j < s.created ∧ ∃ n, (s'.invocation j).correlationIds m = (s.invocation j).correlationIds n)
    (hregistered : ∀ k j, s'.invocations k = some j →
      s.invocations k = some j ∧ s'.currentId j = s.currentId j)
    (haddress : ∀ j < s'.created, ∀ x, (s'.invocation j).sendConnection = some x →
      x.address < s'.nextAddress ∨ j < s.created ∧ (s.invocation j).sendConnection = some x)
    (hentries : ∀ c, ∀ e ∈ s'.writeQueue c ++ s'.drainBatch c,
      e ∈ s.writeQueue c ++ s.drainBatch c ∨
        e.invocation < s.created ∧ NotInitial (s.invocation e.invocation)) : Base s' where
  ids_lt := by
    intro j hj m
    rcases hids j hj m with ⟨-, hlt, hnew⟩ | ⟨hj', n, hold⟩
    · rwa [hnew]
    · rw [hold]
      exact (hb.ids_lt j hj' n).trans_le h.nextCallId
  disjoint := by
    intro j hj l hl hjl m n
    rcases hids j hj m with ⟨hji, -, hnew⟩ | ⟨hj', m', hold⟩ <;>
      rcases hids l hl n with ⟨hli, -, hnew'⟩ | ⟨hl', n', hold'⟩
    · exact absurd (hji.trans hli.symm) hjl
    · rw [hnew, hold']
      exact (hb.ids_lt l hl' n').ne'
    · rw [hold, hnew']
      exact (hb.ids_lt j hj' m').ne
    · rw [hold, hold']
      exact hb.disjoint j hj' l hl' hjl m' n'
  registered := by
    intro k j hk
    obtain ⟨hold, hsame⟩ := hregistered k j hk
    obtain ⟨hj, hcur⟩ := hb.registered k j hold
    exact ⟨hj.trans_le h.created, hsame.trans hcur⟩
  received_lt := fun k hk => (hb.received_lt k (hreceived ▸ hk)).trans_le h.nextCallId
  unreceived := by
    intro j hj hinit m
    rw [hreceived]
    rcases hids j hj m with ⟨-, -, hnew⟩ | ⟨hj', n, hold⟩
    · rw [hnew]
      exact fun hk => (hb.received_lt _ hk).ne rfl
    · rw [hold]
      exact hb.unreceived j hj' (fun hn => hinit (h.notInitial j hj' hn)) n
  address_lt := by
    intro j hj x hx
    rcases haddress j hj x hx with hlt | ⟨hj', hold⟩
    · exact hlt
    · exact (hb.address_lt j hj' x hold).trans_le h.nextAddress
  entries := by
    intro c e he
    obtain ⟨hlt, hni⟩ := (hentries c e he).elim (hb.entries c e) id
    exact ⟨hlt.trans_le h.created, h.notInitial _ hlt hni⟩

/-- A change that no fact of the invariant depends on. -/
structure Quiet (s s' : Client) : Prop where
  created : s'.created = s.created
  nextCallId : s'.nextCallId = s.nextCallId
  nextAddress : s'.nextAddress = s.nextAddress
  invocations : s'.invocations = s.invocations
  received : s'.received = s.received
  clientMessage : ∀ i, (s'.invocation i).clientMessage = (s.invocation i).clientMessage
  correlationIds : ∀ i, (s'.invocation i).correlationIds = (s.invocation i).correlationIds
  sendConnection : ∀ i, (s'.invocation i).sendConnection = (s.invocation i).sendConnection
  pending : ∀ i, (s'.invocation i).pendingResponse = (s.invocation i).pendingResponse
  promise : ∀ i, (s'.invocation i).promise = (s.invocation i).promise
  entries : ∀ c, ∀ e ∈ s'.writeQueue c ++ s'.drainBatch c,
    e ∈ s.writeQueue c ++ s.drainBatch c ∨
      e.invocation < s.created ∧ NotInitial (s.invocation e.invocation)

namespace Quiet

variable {s s' : Client}

theorem refl (s : Client) : Quiet s s where
  created := rfl
  nextCallId := rfl
  nextAddress := rfl
  invocations := rfl
  received := rfl
  clientMessage := fun _ => rfl
  correlationIds := fun _ => rfl
  sendConnection := fun _ => rfl
  pending := fun _ => rfl
  promise := fun _ => rfl
  entries := fun _ _ he => .inl he

section

variable (h : Quiet s s') (i : InvId)

include h

theorem currentId : s'.currentId i = s.currentId i := by
  simp only [Client.currentId, correlationId, h.clientMessage, h.correlationIds]

theorem notInitial : NotInitial (s'.invocation i) ↔ NotInitial (s.invocation i) := by
  simp only [NotInitial, h.sendConnection]

theorem later : Later s s' where
  created := h.created.ge
  nextCallId := h.nextCallId.ge
  nextAddress := h.nextAddress.ge
  received := fun k hk => h.received ▸ hk
  notInitial := fun i _ hi => (h.notInitial i).mpr hi
  pending := fun i _ hi => h.pending i ▸ hi
  promise := fun i _ hi => h.promise i ▸ hi
  ids := fun j hj m => .inr ⟨h.created ▸ hj, m, by rw [h.correlationIds]⟩
  current := fun i _ => .inr (h.currentId i)

theorem base (hb : Base s) : Base s' :=
  h.later.base (i := 0) hb h.received
    (fun _ hj m => .inr ⟨h.created ▸ hj, m, by rw [h.correlationIds]⟩)
    (fun _ j hk => ⟨h.invocations ▸ hk, h.currentId j⟩)
    (fun j hj _ hx => .inr ⟨h.created ▸ hj, h.sendConnection j ▸ hx⟩) h.entries

theorem published : published (s'.invocation i) = published (s.invocation i) := by
  simp only [Spi.published, h.sendConnection]

theorem resolved : resolved (s'.invocation i) = resolved (s.invocation i) := by
  simp only [Spi.resolved, h.pending, h.promise]

end

/-- A change of one invocation in the fields of the backup acks. -/
theorem update (s : Client) (i : InvId) {g : Invocation → Invocation}
    (hg : ∀ v, (g v).clientMessage = v.clientMessage ∧ (g v).correlationIds = v.correlationIds ∧
      (g v).sendConnection = v.sendConnection ∧ (g v).pendingResponse = v.pendingResponse ∧
      (g v).promise = v.promise) : Quiet s (s.update i g) := by
  refine ⟨rfl, rfl, rfl, rfl, rfl, ?_, ?_, ?_, ?_, ?_, fun _ _ he => .inl he⟩ <;>
    exact update_field s i _ (by simp [hg])

end Quiet

namespace Sound

variable {s s' : Client} {f : Frame} {others next : List Frame}

/-- The rule for a step whose change nobody depends on. -/
theorem quiet (h : Sound s (f :: others)) (hq : Quiet s s')
    (hnext : ∀ g ∈ next, Solid s g ∧ Fragile s g)
    (hitems : ∀ g ∈ next, ∀ p ∈ itemsOf g, p ∈ itemsOf f ∨
      Owns s p.2 p.1 ∧ published (s.invocation p.2) = 1)
    (htoken : ∀ i, (next.map (drives i)).sum = drives i f)
    (hlaunch : ∀ i pc, .launch i pc ∈ next → ∃ pc', f = .launch i pc') :
    Sound s' (next ++ others) := by
  have hfragile {g : Frame} (hs : Solid s g) (hf : Fragile s g) : Fragile s' g :=
    hf.congr hs hq.invocations (fun i _ => hq.currentId i) (fun i _ x hx => hq.sendConnection i ▸ hx)
  refine h.advance hq.later (hq.base h.base) hq.created ?_ ?_ ?_ ?_ hitems
  · intro i _
    rw [hq.published, hq.resolved, htoken]
  · intro g hg
    obtain ⟨hs, hf⟩ := hnext g hg
    exact ⟨hq.later.solid hs, hfragile hs hf⟩
  · intro g hg
    exact hfragile (h.solid g (mem_cons_of_mem _ hg))
      (h.fragile g (mem_cons_of_mem _ hg))
  · intro i pc hl
    exact .inl (hlaunch i pc hl)

end Sound

/-! ## Changes of one invocation -/

/-- A change of one invocation that neither gives out an id nor stores a
connection. -/
structure Mild (v v' : Invocation) : Prop where
  ids : ∀ m, ∃ n, v'.correlationIds m = v.correlationIds n
  current : v'.correlationId = v.correlationId
  send : ∀ x, v'.sendConnection = some x → v.sendConnection = some x
  pending : v.pendingResponse ≠ none → v'.pendingResponse ≠ none
  promise : v.promise ≠ none → v'.promise ≠ none

namespace Mild

variable {s : Client} {i : InvId} {g : Invocation → Invocation}

theorem notInitial {v v' : Invocation} (h : Mild v v') (hv : NotInitial v) : NotInitial v' :=
  fun a ha => hv a (h.send _ ha)

theorem refl (v : Invocation) : Mild v v :=
  ⟨fun m => ⟨m, rfl⟩, rfl, fun _ hx => hx, id, id⟩

section

variable (h : Mild (s.invocation i) (g (s.invocation i)))

include h

theorem all (j : InvId) :
    Mild (s.invocation j) ((s.update i g).invocation j) := by
  by_cases hj : j = i
  · rw [hj, update_invocation_self]
    exact h
  · rw [update_invocation_of_ne s g hj]
    exact refl _

theorem later : Later s (s.update i g) where
  created := le_refl _
  nextCallId := le_refl _
  nextAddress := le_refl _
  received := fun _ hk => hk
  notInitial := fun j _ hj => (h.all j).notInitial hj
  pending := fun j _ hj => (h.all j).pending hj
  promise := fun j _ hj => (h.all j).promise hj
  ids := fun j hj m => .inr ⟨hj, (h.all j).ids m⟩
  current := fun j _ => .inr (h.all j).current

theorem base (hb : Base s) :
    Base (s.update i g) :=
  h.later.base (i := i) hb rfl (fun j hj m => .inr ⟨hj, (h.all j).ids m⟩)
    (fun _ j hk => ⟨hk, (h.all j).current⟩) (fun j hj x hx => .inr ⟨hj, (h.all j).send x hx⟩)
    (fun _ _ => .inl)

theorem fragile {f : Frame} (hs : Solid s f) (hf : Fragile s f) : Fragile (s.update i g) f :=
  hf.congr hs rfl (fun j _ => (h.all j).current) (fun j _ => (h.all j).send)

end

end Mild

namespace Sound

variable {s : Client} {f : Frame} {others next : List Frame} {i : InvId}

/-- The rule for a step that changes one invocation. -/
theorem mild {g : Invocation → Invocation} (h : Sound s (f :: others))
    (hm : Mild (s.invocation i) (g (s.invocation i)))
    (htoken : published (g (s.invocation i)) + (next.map (drives i)).sum +
      resolved (g (s.invocation i)) =
        published (s.invocation i) + drives i f + resolved (s.invocation i))
    (hother : ∀ j, j ≠ i → (next.map (drives j)).sum = drives j f)
    (hnext : ∀ g' ∈ next, Solid (s.update i g) g' ∧ Fragile (s.update i g) g')
    (hlaunch : ∀ j pc, .launch j pc ∈ next → ∃ pc', f = .launch j pc')
    (hitems : ∀ g' ∈ next, itemsOf g' = []) : Sound (s.update i g) (next ++ others) := by
  refine h.advance hm.later (hm.base h.base) rfl ?_ hnext ?_ ?_ ?_
  · intro j _
    by_cases hj : j = i
    · rw [hj, update_invocation_self]
      exact htoken
    · rw [update_invocation_of_ne s g hj, hother j hj]
  · intro g' hg'
    exact hm.fragile (h.solid g' (mem_cons_of_mem _ hg'))
      (h.fragile g' (mem_cons_of_mem _ hg'))
  · intro j pc hl
    exact .inl (hlaunch j pc hl)
  · intro g' hg' p hp
    rw [hitems g' hg'] at hp
    exact absurd hp (by simp)

end Sound

section

variable (v : Invocation) (o : Outcome)

theorem mild_satisfy : Mild v (v.satisfy o) where
  ids := fun m => ⟨m, rfl⟩
  current := rfl
  send := fun _ hx => hx
  pending := id
  promise := by
    intro _
    cases hp : v.promise <;> simp [satisfy, hp]

theorem satisfy_promise_ne_none : (v.satisfy o).promise ≠ none := by
  cases hp : v.promise <;> simp [satisfy, hp]

theorem resolved_satisfy : resolved (v.satisfy o) = 1 := by
  have h := satisfy_promise_ne_none v o
  simp [resolved, h]

theorem mild_copyMessage : Mild v v.copyMessage where
  ids := by
    intro m
    by_cases hm : m = v.clientMessage + 1
    · exact ⟨v.clientMessage, by simp [copyMessage, hm, correlationId]⟩
    · exact ⟨m, by simp [copyMessage, hm]⟩
  current := by simp [copyMessage, correlationId]
  send := fun _ hx => hx
  pending := id
  promise := id

theorem mild_takeConnection : Mild v { v with sendConnection := none } :=
  ⟨fun m => ⟨m, rfl⟩, rfl, fun _ hx => absurd hx (by simp), id, id⟩

theorem mild_storePending (r : Response) : Mild v { v with pendingResponse := some r } :=
  ⟨fun m => ⟨m, rfl⟩, rfl, fun _ hx => hx, fun _ => by simp, id⟩

end

variable {v : Invocation}

theorem resolved_of_pending (h : v.pendingResponse ≠ none) : resolved v = 1 := by
  simp [resolved, h]

theorem resolved_of_promise (h : v.promise ≠ none) : resolved v = 1 := by
  simp [resolved, h]

/-! ## Changes of the map -/

theorem Owns.eq_of_currentId {s : Client} {i j : InvId} {k : CorrId} (h : Owns s i k)
    (hj : j < s.created) (hk : s.currentId j = k) : j = i := by
  by_contra hne
  exact h.2.2 j hj hne _ hk

theorem Base.owns {s : Client} (h : Base s) {i : InvId} (hi : i < s.created) :
    Owns s i (s.currentId i) :=
  ⟨hi, h.ids_lt i hi _, fun j hj hne m => h.disjoint j hj i hi hne m _⟩

theorem later_deregister (s : Client) (k : CorrId) : Later s (s.deregister k) :=
  { (Quiet.refl s).later with }

theorem deregister_eq_some {s : Client} {k l : CorrId} {i : InvId}
    (h : (s.deregister k).invocations l = some i) : l ≠ k ∧ s.invocations l = some i := by
  by_cases hl : l = k
  · rw [hl, deregister_invocations_self] at h
    exact absurd h (by simp)
  · rw [deregister_invocations_of_ne s hl] at h
    exact ⟨hl, h⟩

theorem Base.deregister {s : Client} (h : Base s) (k : CorrId) : Base (s.deregister k) :=
  { h with registered := fun l i hl => h.registered l i (deregister_eq_some hl).2 }

theorem Fragile.deregister {s : Client} {f : Frame} {k : CorrId} (h : Fragile s f)
    (hsafe : ∀ j c, f ≠ .launch j (.publish c k)) : Fragile (s.deregister k) f := by
  intro q hq
  have hold := h q hq
  cases q with
  | current i l | swap i l a | waits c l i => exact hold
  | registered l i =>
    obtain ⟨c, rfl⟩ := publishing_of_registered hq
    have hl : l ≠ k := fun heq => hsafe i c (heq ▸ rfl)
    exact (deregister_invocations_of_ne s hl).trans hold
  | unregistered i => exact fun l hl => hold l (deregister_eq_some hl).2

namespace Sound

variable {s : Client} {f : Frame} {others next : List Frame} {i : InvId} {k : CorrId}

section

variable (h : Sound s (f :: others))

include h

/-- The rule for a step that erases the entry of `k`. -/
theorem deregister (hsafe : ∀ j c, .launch j (.publish c k) ∉ others)
    (hnext : ∀ g ∈ next, Solid s g ∧ Fragile (s.deregister k) g)
    (htoken : ∀ j, (next.map (drives j)).sum = drives j f) (hlaunch : ∀ j pc, .launch j pc ∉ next)
    (hitems : ∀ g ∈ next, itemsOf g = []) : Sound (s.deregister k) (next ++ others) := by
  refine h.advance (later_deregister s k) (h.base.deregister k) rfl ?_ ?_ ?_ ?_ ?_
  · intro j _
    rw [htoken]
    rfl
  · intro g hg
    exact ⟨(later_deregister s k).solid (hnext g hg).1, (hnext g hg).2⟩
  · intro g hg
    exact (h.fragile g (mem_cons_of_mem _ hg)).deregister
      fun j c heq => hsafe j c (heq ▸ hg)
  · intro j pc hl
    exact absurd hl (hlaunch j pc)
  · intro g hg p hp
    rw [hitems g hg] at hp
    exact absurd hp (by simp)

/-- Nobody publishes under an id of an invocation that somebody else drives, or
that is decided. -/
theorem not_publishing (ho : Owns s i k) (hi : drives i f = 1 ∨ resolved (s.invocation i) = 1)
    (j : InvId) (c : ConnId) : .launch j (.publish c k) ∉ others := by
  intro hmem
  have hj : j < s.created := created_of_drives (h.solid _ (mem_cons_of_mem _ hmem))
    (by simp)
  have hcur : s.currentId j = k :=
    h.fragile _ (mem_cons_of_mem _ hmem) (.current j k) (by simp)
  have heq := ho.eq_of_currentId hj hcur
  subst heq
  rcases hi with hi | hi
  · exact absurd ((h.exclusive hj hi).2.2 _ hmem) (by simp)
  · exact absurd (h.idle hj (.inr hi) _ (mem_cons_of_mem _ hmem)) (by simp)

/-- The claims about an invocation are made by nobody but its driver. -/
theorem subject_ne (hi : i < s.created) (hd : drives i f = 1) {g : Frame} (hg : g ∈ others)
    {q : Claim} (hq : q ∈ claims g) (hswap : ∀ j l a, q ≠ .swap j l a)
    (hwaits : ∀ c l j, q ≠ .waits c l j) : q.subject ≠ i := by
  obtain ⟨-, hres, hidle⟩ := h.exclusive hi hd
  rintro rfl
  rcases driven_of_claim hq hswap hwaits with hdriven | hpromise
  · rw [hidle g hg] at hdriven
    exact absurd hdriven (by simp)
  · have hset := h.solid g (mem_cons_of_mem _ hg) _ hpromise
    rw [resolved_of_promise hset.2] at hres
    exact absurd hres (by simp)

end

theorem register {c : ConnId} (h : Sound s (.launch i (.insert c k) :: others)) :
    Sound (s.register k i) ([.launch i (.publish c k)] ++ others) := by
  have hi : i < s.created := h.fact (.created i) (by simp)
  have hcur : s.currentId i = k := h.claim (.current i k) (by simp)
  have hmap {l : CorrId} {j : InvId} (hl : (s.register k i).invocations l = some j) :
      l = k ∧ j = i ∨ s.invocations l = some j := by
    by_cases hlk : l = k
    · rw [hlk, Client.register_invocations_self, Option.some.injEq] at hl
      exact .inl ⟨hlk, hl.symm⟩
    · rw [Client.register_invocations_of_ne s i hlk] at hl
      exact .inr hl
  have hlater : Later s (s.register k i) := { (Quiet.refl s).later with }
  have hbase : Base (s.register k i) := by
    refine { h.base with registered := ?_ }
    intro l j hl
    rcases hmap hl with ⟨rfl, rfl⟩ | hold
    · exact ⟨hi, hcur⟩
    · exact h.base.registered l j hold
  refine h.advance hlater hbase rfl ?_ ?_ ?_ ?_ ?_
  · intro j _
    simp [Client.register]
  · intro g hg
    rw [mem_singleton] at hg
    subst hg
    refine ⟨fun q hq => ?_, fun q hq => ?_⟩
    · rw [facts, mem_singleton] at hq
      exact hq ▸ hi
    · simp only [claims, mem_cons, not_mem_nil, or_false] at hq
      rcases hq with rfl | rfl
      · exact hcur
      · exact Client.register_invocations_self s k i
  · intro g hg q hq
    have hold := h.fragile g (mem_cons_of_mem _ hg) q hq
    have hother := h.subject_ne hi (by simp) hg hq
    cases q with
    | current j l | swap j l a | waits c l j => exact hold
    | registered l j =>
      obtain ⟨c', rfl⟩ := publishing_of_registered hq
      have hjcur : s.currentId j = l :=
        h.fragile _ (mem_cons_of_mem _ hg) (.current j l) (by simp)
      have hj := created_of_claim (h.solid _ (mem_cons_of_mem _ hg)) hq
      have hlk : l ≠ k := by
        rintro rfl
        rw [← hcur] at hjcur
        exact hother (by simp) (by simp) ((h.base.owns hi).eq_of_currentId hj hjcur)
      exact (Client.register_invocations_of_ne s i hlk).trans hold
    | unregistered j =>
      intro l hl
      rcases hmap hl with ⟨-, heq⟩ | hreg
      · exact hother (by simp) (by simp) heq
      · exact hold l hreg
  · intro j pc hl
    simp only [mem_singleton, Frame.launch.injEq] at hl
    exact .inl ⟨_, by rw [hl.1]⟩
  · intro g hg p hp
    rw [mem_singleton] at hg
    subst hg
    exact absurd hp (by simp)

end Sound

/-! ## A stored connection -/

section Publish

variable (s : Client) (i : InvId) (c : ConnId) (j : InvId)

theorem publish_sendConnection_self :
    ((s.publish i c).invocation i).sendConnection = some ⟨s.nextAddress, some c⟩ := by
  simp [publish, update, setSendConnection]

theorem publish_invocation_of_ne {j : InvId} (h : j ≠ i) :
    (s.publish i c).invocation j = s.invocation j := by
  simp [publish, update, h]

theorem publish_field {β : Type} (field : Invocation → β)
    (hfield : ∀ v x, field (v.setSendConnection x) = field v) (j : InvId) :
    field ((s.publish i c).invocation j) = field (s.invocation j) :=
  update_field s i field (fun v => hfield v _) j

theorem publish_correlationIds :
    ((s.publish i c).invocation j).correlationIds = (s.invocation j).correlationIds :=
  publish_field s i c correlationIds (fun _ _ => rfl) j

theorem publish_currentId : (s.publish i c).currentId j = s.currentId j :=
  publish_field s i c correlationId (fun _ _ => rfl) j

theorem publish_resolved : resolved ((s.publish i c).invocation j) = resolved (s.invocation j) :=
  publish_field s i c resolved (fun _ _ => rfl) j

theorem notInitial_publish {j : InvId} (h : j = i ∨ NotInitial (s.invocation j)) :
    NotInitial ((s.publish i c).invocation j) := by
  by_cases hj : j = i
  · intro a
    rw [hj, publish_sendConnection_self]
    simp
  · rw [publish_invocation_of_ne s i c hj]
    exact h.resolve_left hj

theorem later_publish : Later s (s.publish i c) where
  created := le_refl _
  nextCallId := le_refl _
  nextAddress := Nat.le_succ _
  received := fun _ hk => hk
  notInitial := fun j _ hj => notInitial_publish s i c (.inr hj)
  pending := fun j _ =>
    (publish_field s i c pendingResponse (fun _ _ => rfl) j).trans_ne
  promise := fun j _ => (publish_field s i c promise (fun _ _ => rfl) j).trans_ne
  ids := fun j hj m => .inr ⟨hj, m, congrFun (publish_correlationIds s i c j) m⟩
  current := fun j _ => .inr (publish_currentId s i c j)

theorem Base.publish {s : Client} (h : Base s) (i : InvId) (c : ConnId) :
    Base (s.publish i c) := by
  refine (later_publish s i c).base (i := i) h rfl
    (fun j hj m => .inr ⟨hj, m, congrFun (publish_correlationIds s i c j) m⟩)
    (fun k j hk => ⟨hk, publish_currentId s i c j⟩) ?_ (fun _ _ => .inl)
  intro j hj x hx
  by_cases hji : j = i
  · rw [hji, publish_sendConnection_self, Option.some.injEq] at hx
    rw [← hx]
    exact .inl (Nat.lt_succ_self _)
  · rw [publish_invocation_of_ne s i c hji] at hx
    exact .inr ⟨hj, hx⟩

end Publish

/-- The step of `send` that lets others notify the invocation. -/
theorem Sound.publish {s : Client} {others : List Frame} {i : InvId} {c : ConnId} {k : CorrId}
    (h : Sound s (.launch i (.publish c k) :: others)) :
    Sound (s.publish i c) ([.sent i c (.recheck k)] ++ others) := by
  have hi : i < s.created := h.fact (.created i) (by simp)
  have hcur : s.currentId i = k := h.claim (.current i k) (by simp)
  have hpub : published (s.invocation i) = 0 := (h.exclusive hi (by simp)).1
  have hlater := later_publish s i c
  refine h.advance hlater (h.base.publish i c) rfl ?_ ?_ ?_ (by simp) (by simp)
  · intro j _
    rw [publish_resolved]
    by_cases hj : j = i
    · have hnew : published ((s.publish i c).invocation i) = 1 := by
        rw [published, publish_sendConnection_self]
      simp [hj, hnew, hpub]
    · simp [publish_invocation_of_ne s i c hj, Ne.symm hj]
  · intro g hg
    rw [mem_singleton] at hg
    subst hg
    refine ⟨fun q hq => ?_, by simp [Fragile]⟩
    simp only [facts, mem_cons, not_mem_nil, or_false] at hq
    rcases hq with rfl | rfl
    · exact hlater.owns (hcur ▸ h.base.owns hi)
    · exact ⟨hi, notInitial_publish s i c (.inl rfl)⟩
  · intro g hg q hq
    have hold := h.fragile g (mem_cons_of_mem _ hg) q hq
    have hsolid := h.solid g (mem_cons_of_mem _ hg)
    cases q with
    | current j l => exact (publish_currentId s i c j).trans hold
    | registered l j | unregistered j => exact hold
    | swap j l a =>
      intro x hx ha
      rw [publish_currentId]
      by_cases hj : j = i
      · -- the holder is newer than every address that has been loaded
        have hlt : a < s.nextAddress := hsolid _ (facts_of_swap hq).2.2
        rw [hj, publish_sendConnection_self, Option.some.injEq] at hx
        rw [← hx] at ha
        exact absurd ha hlt.ne'
      · rw [publish_invocation_of_ne s i c hj] at hx
        exact hold x hx ha
    | waits d l j =>
      intro hl x hx
      rw [publish_currentId] at hl
      by_cases hj : j = i
      · have hfresh := h.fresh g (mem_cons_of_mem _ hg) (l, j) (mem_items_of_waits hq)
          (.publish c k) (hj ▸ mem_cons_self)
        exact absurd hl hfresh
      · rw [publish_invocation_of_ne s i c hj] at hx
        exact hold hl x hx

/-! ## A fresh correlation id -/

section ForceNext

variable (s : Client) (i : InvId) (j : InvId)

theorem forceNext_invocation_of_ne {j : InvId} (h : j ≠ i) :
    (s.forceNext i).invocation j = s.invocation j := by
  simp [forceNext, update, h]

theorem forceNext_field {β : Type} (field : Invocation → β)
    (hfield : ∀ v k, field (v.setCorrelationId k) = field v) (j : InvId) :
    field ((s.forceNext i).invocation j) = field (s.invocation j) :=
  update_field s i field (fun v => hfield v _) j

theorem forceNext_sendConnection :
    ((s.forceNext i).invocation j).sendConnection = (s.invocation j).sendConnection :=
  forceNext_field s i sendConnection (fun _ _ => rfl) j

theorem forceNext_resolved : resolved ((s.forceNext i).invocation j) = resolved (s.invocation j) :=
  forceNext_field s i resolved (fun _ _ => rfl) j

theorem forceNext_currentId_self : (s.forceNext i).currentId i = s.nextCallId := by
  simp [forceNext, update, setCorrelationId, currentId,
    correlationId]

theorem forceNext_currentId_of_ne {j : InvId} (h : j ≠ i) :
    (s.forceNext i).currentId j = s.currentId j := by
  rw [currentId, forceNext_invocation_of_ne s i h, currentId]

/-- An id of the new state is the fresh one or an old one. -/
theorem forceNext_correlationIds (m : ℕ) :
    j = i ∧ ((s.forceNext i).invocation j).correlationIds m = s.nextCallId ∨
      ((s.forceNext i).invocation j).correlationIds m = (s.invocation j).correlationIds m := by
  by_cases hj : j = i
  · subst hj
    by_cases hm : m = (s.invocation j).clientMessage
    · simp [forceNext, update, setCorrelationId, hm]
    · simp [forceNext, update, setCorrelationId, hm]
  · exact .inr (by rw [forceNext_invocation_of_ne s i hj])

theorem notInitial_forceNext :
    NotInitial ((s.forceNext i).invocation j) ↔ NotInitial (s.invocation j) := by
  simp only [NotInitial, forceNext_sendConnection]

theorem later_forceNext : Later s (s.forceNext i) where
  created := le_refl _
  nextCallId := Nat.le_succ _
  nextAddress := le_refl _
  received := fun _ hk => hk
  notInitial := fun j _ hj => (notInitial_forceNext s i j).mpr hj
  pending := fun j _ =>
    (forceNext_field s i pendingResponse (fun _ _ => rfl) j).trans_ne
  promise := fun j _ => (forceNext_field s i promise (fun _ _ => rfl) j).trans_ne
  ids := by
    intro j hj m
    rcases forceNext_correlationIds s i j m with ⟨-, hnew⟩ | hold
    · exact .inl hnew.ge
    · exact .inr ⟨hj, m, hold⟩
  current := by
    intro j _
    by_cases hj : j = i
    · exact .inl (hj ▸ (forceNext_currentId_self s j).ge)
    · exact .inr (forceNext_currentId_of_ne s i hj)

theorem Base.forceNext {s : Client} (h : Base s) {i : InvId}
    (hout : ∀ k, s.invocations k ≠ some i) : Base (s.forceNext i) := by
  refine (later_forceNext s i).base (i := i) h rfl ?_ ?_ ?_ (fun _ _ => .inl)
  · intro j hj m
    exact (forceNext_correlationIds s i j m).imp (fun hnew => ⟨hnew.1, Nat.lt_succ_self _, hnew.2⟩)
      fun hold => ⟨hj, m, hold⟩
  · intro k j hk
    exact ⟨hk, forceNext_currentId_of_ne s i fun heq => hout k (heq ▸ hk)⟩
  · intro j hj x hx
    exact .inr ⟨hj, forceNext_sendConnection s i j ▸ hx⟩

end ForceNext

theorem sendConnection_eq_none (hv : NotInitial v) (hp : published v = 0) :
    v.sendConnection = none := by
  match hx : v.sendConnection with
  | none => rfl
  | some ⟨a, none⟩ => exact absurd hx (hv a)
  | some ⟨a, some c⟩ => simp [published, hx] at hp

/-- The step of `execute` that gives out a correlation id. -/
theorem Sound.forceNext {s : Client} {others : List Frame} {i : InvId}
    (h : Sound s (.failing i .execute :: others)) :
    Sound (s.forceNext i) ([.launch i .retry] ++ others) := by
  have hi : i < s.created := h.fact (.created i) (by simp)
  have hout : ∀ k, s.invocations k ≠ some i := h.claim (.unregistered i) (by simp)
  have hpub : published (s.invocation i) = 0 := (h.exclusive hi (by simp)).1
  have hlater := later_forceNext s i
  refine h.advance hlater (h.base.forceNext hout) rfl ?_ ?_ ?_ ?_ (by simp)
  · intro j _
    rw [forceNext_resolved, published, forceNext_sendConnection, ← published]
    simp
  · intro g hg
    rw [mem_singleton] at hg
    subst hg
    refine ⟨fun q hq => ?_, by simp [Fragile]⟩
    rw [facts, mem_singleton] at hq
    exact hq ▸ hi
  · intro g hg q hq
    have hold := h.fragile g (mem_cons_of_mem _ hg) q hq
    have hsolid := h.solid g (mem_cons_of_mem _ hg)
    have hother := h.subject_ne hi (by simp) hg hq
    cases q with
    | current j l =>
      exact (forceNext_currentId_of_ne s i (hother (by simp) (by simp))).trans hold
    | registered l j | unregistered j => exact hold
    | swap j l a =>
      intro x hx ha
      rw [forceNext_sendConnection] at hx
      by_cases hj : j = i
      · -- the connection has been taken, so the compare-exchange will fail
        have hni : NotInitial (s.invocation j) := (hsolid _ (facts_of_swap hq).2.1).2
        rw [sendConnection_eq_none hni (hj ▸ hpub)] at hx
        exact absurd hx (by simp)
      · rw [forceNext_currentId_of_ne s i hj]
        exact hold x hx ha
    | waits c l j =>
      intro hl x hx
      rw [forceNext_sendConnection] at hx
      by_cases hj : j = i
      · have hlt := (owns_of_mem_items hsolid (mem_items_of_waits hq)).2.1
        rw [hj, forceNext_currentId_self] at hl
        exact absurd hl hlt.ne'
      · rw [forceNext_currentId_of_ne s i hj] at hl
        exact hold hl x hx
  · intro j pc hl
    simp only [mem_singleton, Frame.launch.injEq] at hl
    rw [hl.1, forceNext_currentId_self]
    exact .inr (le_refl _)

/-! ## The environment -/

namespace Sound

variable {s s' : Client} {frames : List Frame}

/-- New threads that have nothing to do with an invocation yet. -/
theorem spawn {next : List Frame} (h : Sound s frames)
    (hnext : ∀ g ∈ next, Solid s g ∧ (∀ i, drives i g = 0) ∧ claims g = [] ∧ itemsOf g = []) :
    Sound s (frames ++ next) where
  base := h.base
  token := by
    intro i hi
    have hzero : (next.map (drives i)).sum = 0 := by
      refine sum_eq_zero fun n hn => ?_
      obtain ⟨g, hg, rfl⟩ := mem_map.mp hn
      exact (hnext g hg).2.1 i
    rw [map_append, sum_append, hzero]
    exact h.token i hi
  solid := by
    intro g hg
    rcases mem_append.mp hg with hg | hg
    · exact h.solid g hg
    · exact (hnext g hg).1
  fragile := by
    intro g hg
    rcases mem_append.mp hg with hg | hg
    · exact h.fragile g hg
    · intro q hq
      rw [(hnext g hg).2.2.1] at hq
      exact absurd hq (by simp)
  fresh := by
    intro g hg p hp pc hl
    have hold : .launch p.2 pc ∈ frames := by
      refine (mem_append.mp hl).resolve_right fun hnew => ?_
      exact absurd ((hnext _ hnew).2.1 p.2) (by simp)
    rcases mem_append.mp hg with hg | hg
    · exact h.fresh g hg p hp pc hold
    · rw [(hnext g hg).2.2.2] at hp
      exact absurd hp (by simp)

theorem change (h : Sound s frames) (hlater : Later s s') (hbase : Base s')
    (hcreated : s'.created = s.created) (hinvocation : s'.invocation = s.invocation)
    (hmap : s'.invocations = s.invocations) : Sound s' frames where
  base := hbase
  token := by
    rw [hcreated, hinvocation]
    exact h.token
  solid := fun g hg => hlater.solid (h.solid g hg)
  fragile := by
    intro g hg
    refine (h.fragile g hg).congr (h.solid g hg) hmap ?_ ?_
    · intro i _
      rw [currentId, hinvocation, currentId]
    · intro i _ x hx
      rwa [hinvocation] at hx
  fresh := by
    intro g hg p hp pc hl
    rw [currentId, hinvocation]
    exact h.fresh g hg p hp pc hl

end Sound

theorem drives_eq_zero_or_one (i : InvId) (f : Frame) : drives i f = 0 ∨ drives i f = 1 := by
  unfold drives
  split <;> try split
  all_goals simp

section Invoke

variable (s : Client) (request : Request)

theorem invoke_invocation_self :
    (s.invoke request).invocation s.created = newInvocation s request := by
  simp [invoke]

theorem invoke_invocation_of_lt {i : InvId} (h : i < s.created) :
    (s.invoke request).invocation i = s.invocation i := by
  simp [invoke, h.ne]

theorem invoke_currentId_of_lt {i : InvId} (h : i < s.created) :
    (s.invoke request).currentId i = s.currentId i :=
  congrArg correlationId (invoke_invocation_of_lt s request h)

theorem later_invoke : Later s (s.invoke request) where
  created := Nat.le_succ _
  nextCallId := Nat.le_succ _
  nextAddress := Nat.le_succ _
  received := fun _ hk => hk
  notInitial := by
    intro i hi h
    rwa [invoke_invocation_of_lt s request hi]
  pending := by
    intro i hi h
    rwa [invoke_invocation_of_lt s request hi]
  promise := by
    intro i hi h
    rwa [invoke_invocation_of_lt s request hi]
  ids := by
    intro j hj m
    rcases Nat.lt_succ_iff_lt_or_eq.mp hj with hj | rfl
    · exact .inr ⟨hj, m, by rw [invoke_invocation_of_lt s request hj]⟩
    · rw [invoke_invocation_self]
      exact .inl (le_refl _)
  current := fun _ hi => .inr (invoke_currentId_of_lt s request hi)

theorem Base.invoke {s : Client} (h : Base s) (request : Request) :
    Base (s.invoke request) := by
  refine (later_invoke s request).base (i := s.created) h rfl ?_ ?_ ?_ (fun _ _ => .inl)
  · intro i hi m
    rcases Nat.lt_succ_iff_lt_or_eq.mp hi with hi | rfl
    · exact .inr ⟨hi, m, by rw [invoke_invocation_of_lt s request hi]⟩
    · rw [invoke_invocation_self]
      exact .inl ⟨rfl, Nat.lt_succ_self _, rfl⟩
  · intro k i hk
    exact ⟨hk, invoke_currentId_of_lt s request (h.registered k i hk).1⟩
  · intro i hi x hx
    rcases Nat.lt_succ_iff_lt_or_eq.mp hi with hi | rfl
    · rw [invoke_invocation_of_lt s request hi] at hx
      exact .inr ⟨hi, hx⟩
    · rw [invoke_invocation_self, newInvocation, Option.some.injEq] at hx
      rw [← hx]
      exact .inl (Nat.lt_succ_self _)

end Invoke

/-- A call of `invoke`: nobody has heard of the new invocation. -/
theorem Sound.invoke {s : Client} {frames : List Frame} (h : Sound s frames)
    (request : Request) :
    Sound (s.invoke request) (frames ++ [.launch s.created .select]) where
  base := h.base.invoke request
  token := by
    intro i hi
    rw [map_append, sum_append, map_singleton, sum_singleton]
    rcases Nat.lt_succ_iff_lt_or_eq.mp hi with hi | rfl
    · rw [invoke_invocation_of_lt s request hi]
      simp only [drives, hi.ne', if_false, add_zero]
      exact h.token i hi
    · have hzero : (frames.map (drives s.created)).sum = 0 := by
        refine sum_eq_zero fun n hn => ?_
        obtain ⟨g, hg, rfl⟩ := mem_map.mp hn
        refine (drives_eq_zero_or_one _ g).resolve_right fun hd => ?_
        exact (created_of_drives (h.solid g hg) hd).ne rfl
      rw [invoke_invocation_self, hzero]
      simp [newInvocation, published, resolved]
  solid := by
    intro g hg
    rcases mem_append.mp hg with hg | hg
    · exact (later_invoke s request).solid (h.solid g hg)
    · rw [mem_singleton] at hg
      subst hg
      intro q hq
      rw [facts, mem_singleton] at hq
      subst hq
      exact Nat.lt_succ_self _
  fragile := by
    intro g hg
    rcases mem_append.mp hg with hg | hg
    · refine (h.fragile g hg).congr (h.solid g hg) rfl
        (fun i hi => invoke_currentId_of_lt s request hi) ?_
      intro i hi x hx
      rwa [invoke_invocation_of_lt s request hi] at hx
    · rw [mem_singleton] at hg
      subst hg
      simp [Fragile]
  fresh := by
    intro g hg p hp pc hl
    have hg : g ∈ frames := by
      refine (mem_append.mp hg).resolve_right fun hnew => ?_
      rw [mem_singleton] at hnew
      subst hnew
      exact absurd hp (by simp)
    have hlt := (owns_of_mem_items (h.solid g hg) hp).1
    have hl : .launch p.2 pc ∈ frames := by
      refine (mem_append.mp hl).resolve_right fun hnew => ?_
      simp only [mem_singleton, Frame.launch.injEq] at hnew
      exact hlt.ne hnew.1
    rw [invoke_currentId_of_lt s request hlt]
    exact h.fresh g hg p hp pc hl

end HazelcastClient.Spi
