import HazelcastClient.Spi.Service

/-!
# Who may act on an invocation

At every moment exactly one of the following holds of an invocation: one thread
drives it (it is being sent, its response is being handled, or its exception is
being handled), or it waits for a notifier with a connection in
`send_connection_`, or its fate is decided because the response is pending or the
promise is satisfied. `Sound.token` says this as an equation of natural numbers.

A frame relies on statements of two kinds. Its facts, once true, stay true in
every later state (`Later.fact`). Its claims could be destroyed by another thread;
they are kept because the thread that could do it would need the token as well.
-/

namespace HazelcastClient.Spi

open Interleaving List

/-- A connection is stored in `send_connection_` and nobody has taken it. -/
def published (v : Invocation) : ℕ :=
  match v.sendConnection with
  | some ⟨_, some _⟩ => 1
  | _ => 0

/-- The response is pending or the promise is satisfied. -/
def resolved (v : Invocation) : ℕ :=
  if v.pendingResponse = none ∧ v.promise = none then 0 else 1

/-- `send_connection_` is no longer the one of the constructor. -/
def NotInitial (v : Invocation) : Prop := ∀ a, v.sendConnection ≠ some ⟨a, none⟩

/-- The places of `notify_response` at which the response has not been stored. -/
def Responding.owns : Responding → Bool
  | .compare | .storeTime | .storeExpected | .storePending | .complete false => true
  | .recheck | .complete true => false

/-- The frame drives the invocation. -/
@[simp] def drives (i : InvId) : Frame → ℕ
  | .launch j _ => if j = i then 1 else 0
  | .failing j _ => if j = i then 1 else 0
  | .responding j _ pc => if j = i ∧ pc.owns = true then 1 else 0
  | _ => 0

def Closing.items : Closing → List (CorrId × InvId)
  | .visit _ toFail => toFail
  | .failNext toFail => toFail
  | .deregister k i => [(k, i)]
  | _ => []

@[simp] def itemsOf : Frame → List (CorrId × InvId)
  | .closing _ pc => pc.items
  | _ => []

/-- The correlation id `k` has been given out, and to no other invocation. -/
def Owns (s : Client) (i : InvId) (k : CorrId) : Prop :=
  i < s.created ∧ k < s.nextCallId ∧
    ∀ j < s.created, j ≠ i → ∀ m, (s.invocation j).correlationIds m ≠ k

/-- A response is notified under its own correlation id. -/
def Cause.Answers (k : CorrId) : Cause → Prop
  | .response r => r.correlationId = k
  | _ => True

/-- What a frame knows and what stays true. -/
inductive Fact where
  | created (i : InvId)
  | owns (i : InvId) (k : CorrId)
  | notInitial (i : InvId)
  | address (a : ℕ)
  | pending (i : InvId)
  | promise (i : InvId)
  | received (k : CorrId)
  | answers (k : CorrId) (cause : Cause)

def Fact.Holds (s : Client) : Fact → Prop
  | .created i => i < s.created
  | .owns i k => Owns s i k
  | .notInitial i => i < s.created ∧ NotInitial (s.invocation i)
  | .address a => a < s.nextAddress
  | .pending i => i < s.created ∧ (s.invocation i).pendingResponse ≠ none
  | .promise i => i < s.created ∧ (s.invocation i).promise ≠ none
  | .received k => k ∈ s.received
  | .answers k cause => cause.Answers k

@[simp] def facts : Frame → List Fact
  | .launch i _ => [.created i]
  | .sent i _ (.recheck k) => [.owns i k, .notInitial i]
  | .sent i _ _ => [.notInitial i]
  | .permission i k cause .load => [.owns i k, .notInitial i, .answers k cause]
  | .permission i k cause (.readId a) => [.owns i k, .notInitial i, .answers k cause, .address a]
  | .permission i k cause (.cas a) => [.owns i k, .notInitial i, .answers k cause, .address a]
  | .responding i _ pc => if pc.owns then [.created i] else [.created i, .pending i]
  | .backup k i .increment => [.owns i k]
  | .backup _ i .loadPending => [.created i]
  | .backup _ i _ => [.pending i]
  | .completion i _ => [.promise i]
  | .failing i _ => [.created i]
  | .processResponse m => [.received m.requestId]
  | .closing _ pc => pc.items.flatMap fun p => [.owns p.2 p.1, .notInitial p.2]
  | .sweeping (.readAcks k i) => [.owns i k]
  | .sweeping (.readReceived k i _) => [.owns i k]
  | .sweeping (.readExpected k i _) => [.owns i k]
  | .sweeping (.loadPending k i) => [.owns i k]
  | .sweeping (.loadTime k i) => [.owns i k, .pending i]
  | .sweeping (.complete k i) => [.owns i k, .pending i]
  | .sweeping (.eraseKey k i) => [.owns i k, .promise i]
  | .sweeping _ => []
  | .socket _ _ => []
  | .shutdown _ => []

def Solid (s : Client) (f : Frame) : Prop := ∀ q ∈ facts f, q.Holds s

/-- What a frame relies on although other threads could change it. -/
inductive Claim where
  /-- The current correlation id. -/
  | current (i : InvId) (k : CorrId)
  /-- The entry of the map. -/
  | registered (k : CorrId) (i : InvId)
  /-- No entry of the map leads to the invocation. -/
  | unregistered (i : InvId)
  /-- The id is current as long as the holder is the one that has been loaded. -/
  | swap (i : InvId) (k : CorrId) (a : ℕ)
  /-- As long as the id is current, nobody stores another connection. -/
  | waits (c : ConnId) (k : CorrId) (i : InvId)

def Claim.Holds (s : Client) : Claim → Prop
  | .current i k => s.currentId i = k
  | .registered k i => s.invocations k = some i
  | .unregistered i => ∀ k, s.invocations k ≠ some i
  | .swap i k a => ∀ x, (s.invocation i).sendConnection = some x → x.address = a →
      s.currentId i = k
  | .waits c k i => s.currentId i = k →
      ∀ x, (s.invocation i).sendConnection = some x → x.connection = some c

@[simp] def claims : Frame → List Claim
  | .launch i (.insert _ k) => [.current i k]
  | .launch i (.publish _ k) => [.current i k, .registered k i]
  | .permission i k _ (.cas a) => [.swap i k a]
  | .responding i r pc => if pc.owns then [.current i r.correlationId] else []
  | .completion i (.eraseKey k) => [.current i k]
  | .failing i (.eraseKey _ k) => [.current i k]
  | .failing i (.setErase _ k) => [.current i k]
  | .failing i (.handle _) => [.unregistered i]
  | .failing i .execute => [.unregistered i]
  | .closing c pc => pc.items.map fun p => .waits c p.1 p.2
  | _ => []

def Fragile (s : Client) (f : Frame) : Prop := ∀ q ∈ claims f, q.Holds s

structure Base (s : Client) : Prop where
  ids_lt : ∀ i < s.created, ∀ m, (s.invocation i).correlationIds m < s.nextCallId
  disjoint : ∀ i < s.created, ∀ j < s.created, i ≠ j → ∀ m n,
    (s.invocation i).correlationIds m ≠ (s.invocation j).correlationIds n
  registered : ∀ k i, s.invocations k = some i → i < s.created ∧ s.currentId i = k
  received_lt : ∀ k ∈ s.received, k < s.nextCallId
  unreceived : ∀ i < s.created, ¬ NotInitial (s.invocation i) →
    ∀ m, (s.invocation i).correlationIds m ∉ s.received
  address_lt : ∀ i < s.created, ∀ x, (s.invocation i).sendConnection = some x →
    x.address < s.nextAddress
  entries : ∀ c, ∀ e ∈ s.writeQueue c ++ s.drainBatch c,
    e.invocation < s.created ∧ NotInitial (s.invocation e.invocation)

structure Sound (s : Client) (frames : List Frame) : Prop where
  base : Base s
  token : ∀ i < s.created, published (s.invocation i) + (frames.map (drives i)).sum +
    resolved (s.invocation i) = 1
  solid : ∀ f ∈ frames, Solid s f
  fragile : ∀ f ∈ frames, Fragile s f
  fresh : ∀ f ∈ frames, ∀ p ∈ itemsOf f, ∀ pc, .launch p.2 pc ∈ frames →
    s.currentId p.2 ≠ p.1

/-! ## Later states -/

structure Later (s s' : Client) : Prop where
  created : s.created ≤ s'.created
  nextCallId : s.nextCallId ≤ s'.nextCallId
  nextAddress : s.nextAddress ≤ s'.nextAddress
  received : ∀ k ∈ s.received, k ∈ s'.received
  notInitial : ∀ i < s.created, NotInitial (s.invocation i) → NotInitial (s'.invocation i)
  pending : ∀ i < s.created, (s.invocation i).pendingResponse ≠ none →
    (s'.invocation i).pendingResponse ≠ none
  promise : ∀ i < s.created, (s.invocation i).promise ≠ none → (s'.invocation i).promise ≠ none
  ids : ∀ j < s'.created, ∀ m, s.nextCallId ≤ (s'.invocation j).correlationIds m ∨
    j < s.created ∧ ∃ n, (s'.invocation j).correlationIds m = (s.invocation j).correlationIds n
  current : ∀ i < s.created, s.nextCallId ≤ s'.currentId i ∨ s'.currentId i = s.currentId i

variable {i : InvId} {k : CorrId} {q : Claim} {f : Frame}

section

variable {s s' : Client} (h : Later s s')

include h

theorem Later.owns (ho : Owns s i k) : Owns s' i k := by
  obtain ⟨hi, hk, hother⟩ := ho
  refine ⟨hi.trans_le h.created, hk.trans_le h.nextCallId, ?_⟩
  intro j hj hne m
  rcases h.ids j hj m with hnew | ⟨hj', n, hold⟩
  · exact (hk.trans_le hnew).ne'
  · rw [hold]
    exact hother j hj' hne n

theorem Later.fact {q : Fact} (hq : q.Holds s) : q.Holds s' := by
  cases q with
  | created i => exact lt_of_lt_of_le hq h.created
  | owns i k => exact h.owns hq
  | notInitial i => exact ⟨hq.1.trans_le h.created, h.notInitial i hq.1 hq.2⟩
  | address a => exact lt_of_lt_of_le hq h.nextAddress
  | pending i => exact ⟨hq.1.trans_le h.created, h.pending i hq.1 hq.2⟩
  | promise i => exact ⟨hq.1.trans_le h.created, h.promise i hq.1 hq.2⟩
  | received k => exact h.received k hq
  | answers k cause => exact hq

theorem Later.solid (hf : Solid s f) : Solid s' f :=
  fun q hq => h.fact (hf q hq)

end

/-! ## Who makes which claim -/

def Claim.subject : Claim → InvId
  | .current i _ => i
  | .registered _ i => i
  | .unregistered i => i
  | .swap i _ _ => i
  | .waits _ _ i => i

inductive Claimed : Frame → Claim → Prop
  | insert (i : InvId) (c : ConnId) (k : CorrId) : Claimed (.launch i (.insert c k)) (.current i k)
  | publish (i : InvId) (c : ConnId) (k : CorrId) :
      Claimed (.launch i (.publish c k)) (.current i k)
  | published (i : InvId) (c : ConnId) (k : CorrId) :
      Claimed (.launch i (.publish c k)) (.registered k i)
  | swap (i : InvId) (k : CorrId) (cause : Cause) (a : ℕ) :
      Claimed (.permission i k cause (.cas a)) (.swap i k a)
  | responding (i : InvId) (r : Response) (pc : Responding) (howns : pc.owns = true) :
      Claimed (.responding i r pc) (.current i r.correlationId)
  | completed (i : InvId) (k : CorrId) : Claimed (.completion i (.eraseKey k)) (.current i k)
  | failing (i : InvId) (e : IException) (k : CorrId) :
      Claimed (.failing i (.eraseKey e k)) (.current i k)
  | setting (i : InvId) (e : IException) (k : CorrId) :
      Claimed (.failing i (.setErase e k)) (.current i k)
  | erased (i : InvId) (e : IException) : Claimed (.failing i (.handle e)) (.unregistered i)
  | again (i : InvId) : Claimed (.failing i .execute) (.unregistered i)
  | closing (c : ConnId) (pc : Closing) {k : CorrId} {i : InvId} (hitem : (k, i) ∈ pc.items) :
      Claimed (.closing c pc) (.waits c k i)

theorem claimed_of_mem (hq : q ∈ claims f) : Claimed f q := by
  unfold claims at hq
  split at hq
  · cases mem_singleton.mp hq
    exact Claimed.insert _ _ _
  · rcases mem_cons.mp hq with rfl | hq
    · exact Claimed.publish _ _ _
    · cases mem_singleton.mp hq
      exact Claimed.published _ _ _
  · cases mem_singleton.mp hq
    exact Claimed.swap _ _ _ _
  · split at hq
    · rename_i howns
      cases mem_singleton.mp hq
      exact Claimed.responding _ _ _ howns
    · cases hq
  · cases mem_singleton.mp hq
    exact Claimed.completed _ _
  · cases mem_singleton.mp hq
    exact Claimed.failing _ _ _
  · cases mem_singleton.mp hq
    exact Claimed.setting _ _ _
  · cases mem_singleton.mp hq
    exact Claimed.erased _ _
  · cases mem_singleton.mp hq
    exact Claimed.again _
  · obtain ⟨p, hp, rfl⟩ := mem_map.mp hq
    exact Claimed.closing _ _ hp
  · cases hq

theorem mem_items_of_waits {c : ConnId} (hq : .waits c k i ∈ claims f) : (k, i) ∈ itemsOf f := by
  cases claimed_of_mem hq with
  | closing c pc hitem => exact hitem

theorem facts_of_swap {a : ℕ} (hq : .swap i k a ∈ claims f) :
    .owns i k ∈ facts f ∧ .notInitial i ∈ facts f ∧ .address a ∈ facts f := by
  cases claimed_of_mem hq with
  | swap i k cause a => simp

/-- The other claims are made by the thread that drives the invocation, or after
its promise has been satisfied. -/
theorem driven_of_claim (hq : q ∈ claims f) (hswap : ∀ i k a, q ≠ .swap i k a)
    (hwaits : ∀ c k i, q ≠ .waits c k i) :
    drives q.subject f = 1 ∨ .promise q.subject ∈ facts f := by
  cases claimed_of_mem hq with
  | swap i k cause a => exact absurd rfl (hswap i k a)
  | closing c pc hitem => exact absurd rfl (hwaits c _ _)
  | responding i r pc howns => exact .inl (by simp [Claim.subject, howns])
  | completed i k => exact .inr mem_cons_self
  | _ => exact .inl (by simp [Claim.subject])

section

variable {s : Client} (hs : Solid s f)

include hs

theorem owns_of_mem_items {p : CorrId × InvId} (hp : p ∈ itemsOf f) : Owns s p.2 p.1 := by
  cases f with
  | closing c pc => exact hs (.owns p.2 p.1) (mem_flatMap.mpr ⟨p, hp, mem_cons_self⟩)
  | _ => cases hp

theorem created_of_drives (hd : drives i f = 1) : i < s.created := by
  cases f with
  | launch j pc | failing j pc =>
    have hj : j = i := by simpa using hd
    exact hj ▸ hs (.created j) (by simp)
  | responding j r pc =>
    have hj : j = i ∧ pc.owns = true := by simpa using hd
    exact hj.1 ▸ hs (.created j) (by simp [hj.2])
  | _ => cases hd

theorem created_of_claim (hq : q ∈ claims f) : q.subject < s.created := by
  cases q with
  | swap i k a => exact (hs _ (facts_of_swap hq).1).1
  | waits c k i => exact (owns_of_mem_items hs (mem_items_of_waits hq)).1
  | current i k | registered k i | unregistered i =>
    rcases driven_of_claim hq (by simp) (by simp) with hd | hp
    · exact created_of_drives hs hd
    · exact (hs _ hp).1

end

theorem publishing_of_registered (hq : .registered k i ∈ claims f) :
    ∃ c, f = .launch i (.publish c k) := by
  cases claimed_of_mem hq with
  | published i c k => exact ⟨c, rfl⟩

/-- Claims survive what leaves the map and the current ids alone and stores no
connection. -/
theorem Fragile.congr {s s' : Client} (hf : Fragile s f) (hs : Solid s f)
    (hmap : s'.invocations = s.invocations) (hcur : ∀ i < s.created, s'.currentId i = s.currentId i)
    (hsend : ∀ i < s.created, ∀ x, (s'.invocation i).sendConnection = some x →
      (s.invocation i).sendConnection = some x) : Fragile s' f := by
  intro q hq
  have hlt := created_of_claim hs hq
  have hold := hf q hq
  cases q with
  | current i k => exact (hcur i hlt).trans hold
  | registered k i => exact (congrFun hmap k).trans hold
  | unregistered i => exact fun k hk => hold k ((congrFun hmap k).symm.trans hk)
  | swap i k a => exact fun x hx ha => (hcur i hlt).trans (hold x (hsend i hlt x hx) ha)
  | waits c k i =>
    exact fun hk x hx => hold ((hcur i hlt).symm.trans hk) x (hsend i hlt x hx)

/-! ## One step -/

namespace Sound

variable {s s' : Client} {f : Frame} {others next frames frames' : List Frame} {i : InvId}

/-- Nobody drives an invocation that waits or is decided. -/
theorem idle (h : Sound s frames) (hi : i < s.created)
    (hw : published (s.invocation i) = 1 ∨ resolved (s.invocation i) = 1) :
    ∀ g ∈ frames, drives i g = 0 := by
  have ht := h.token i hi
  intro g hg
  have hle := weight_le_of_mem (drives i) hg
  rcases hw with hw | hw <;> omega

section

variable (h : Sound s (f :: others))

include h

/-- What the frame that moves relies on. -/
theorem fact (q : Fact) (hq : q ∈ facts f) : q.Holds s :=
  h.solid f mem_cons_self q hq

theorem claim (q : Claim) (hq : q ∈ claims f) : q.Holds s :=
  h.fragile f mem_cons_self q hq

/-- Beside the thread that drives an invocation nobody else has the token. -/
theorem exclusive (hi : i < s.created) (hf : drives i f = 1) :
    published (s.invocation i) = 0 ∧ resolved (s.invocation i) = 0 ∧
      ∀ g ∈ others, drives i g = 0 := by
  have ht := h.token i hi
  rw [map_cons, sum_cons, hf] at ht
  refine ⟨by omega, by omega, fun g hg => ?_⟩
  have hle := weight_le_of_mem (drives i) hg
  omega

/-- The rule for one step: the frame `f` is replaced by `next`. -/
theorem advance (hlater : Later s s') (hbase : Base s') (hcreated : s'.created = s.created)
    (htoken : ∀ i < s.created, published (s'.invocation i) + (next.map (drives i)).sum +
      resolved (s'.invocation i) =
        published (s.invocation i) + drives i f + resolved (s.invocation i))
    (hnext : ∀ g ∈ next, Solid s' g ∧ Fragile s' g) (hfragile : ∀ g ∈ others, Fragile s' g)
    (hlaunch : ∀ i pc, .launch i pc ∈ next →
      (∃ pc', f = .launch i pc') ∨ s.nextCallId ≤ s'.currentId i)
    (hitems : ∀ g ∈ next, ∀ p ∈ itemsOf g, p ∈ itemsOf f ∨
      Owns s p.2 p.1 ∧ published (s.invocation p.2) = 1) :
    Sound s' (next ++ others) where
  base := hbase
  token := by
    intro i hi
    rw [hcreated] at hi
    have ht := h.token i hi
    have hstep := htoken i hi
    rw [map_cons, sum_cons] at ht
    rw [map_append, sum_append]
    omega
  solid := by
    intro g hg
    rcases mem_append.mp hg with hg | hg
    · exact (hnext g hg).1
    · exact hlater.solid (h.solid g (mem_cons_of_mem _ hg))
  fragile := by
    intro g hg
    rcases mem_append.mp hg with hg | hg
    · exact (hnext g hg).2
    · exact hfragile g hg
  fresh := by
    intro g hg p hp pc hl
    -- every item is an old one, or its invocation was waiting before the step
    have hitem : p ∈ itemsOf g ∧ g ∈ f :: others ∨ p ∈ itemsOf f ∨
        Owns s p.2 p.1 ∧ published (s.invocation p.2) = 1 := by
      rcases mem_append.mp hg with hg | hg
      · exact .inr (hitems g hg p hp)
      · exact .inl ⟨hp, mem_cons_of_mem _ hg⟩
    have hown : Owns s p.2 p.1 := by
      rcases hitem with ⟨hp, hg⟩ | hp | ⟨ho, -⟩
      · exact owns_of_mem_items (h.solid g hg) hp
      · exact owns_of_mem_items (h.solid f mem_cons_self) hp
      · exact ho
    have hold (pc' : Launch) (hmem : .launch p.2 pc' ∈ f :: others) : s.currentId p.2 ≠ p.1 := by
      rcases hitem with ⟨hp, hg⟩ | hp | ⟨-, hpub⟩
      · exact h.fresh g hg p hp pc' hmem
      · exact h.fresh f mem_cons_self p hp pc' hmem
      · exact absurd (h.idle hown.1 (.inl hpub) _ hmem) (by simp)
    have hkeep (hne : s.currentId p.2 ≠ p.1) : s'.currentId p.2 ≠ p.1 := by
      rcases hlater.current p.2 hown.1 with hnew | hsame
      · exact (hown.2.1.trans_le hnew).ne'
      · rw [hsame]
        exact hne
    rcases mem_append.mp hl with hl | hl
    · rcases hlaunch p.2 pc hl with ⟨pc', rfl⟩ | hnew
      · exact hkeep (hold pc' mem_cons_self)
      · exact (hown.2.1.trans_le hnew).ne'
    · exact hkeep (hold pc (mem_cons_of_mem _ hl))

end

theorem perm (h : Sound s frames) (hp : frames.Perm frames') : Sound s frames' := by
  obtain ⟨base, token, solid, fragile, fresh⟩ := h
  simp only [hp.mem_iff, sum_map_of_perm _ hp] at token solid fragile fresh
  exact ⟨base, token, solid, fragile, fresh⟩

end Sound

end HazelcastClient.Spi
