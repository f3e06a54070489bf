import HazelcastClient.Spi.Permission

/-!
# No invocation is stranded on a closed connection

The sender looks at the connection, registers the invocation, stores the
connection, and looks again; the closing thread marks the connection dead and then
visits the map. As long as an invocation waits on a dead connection, one of them is
on its way to take the permission (`Attended.helped`). For the window between the
second look and the visit it matters that the entry is in the map as long as the
connection is alive (`Attended.registered`).
-/

namespace HazelcastClient.Spi

open Interleaving List Option Write

/-- The frame is going to take the holder at `a` of the connection `c` from the
invocation `i` with the id `k`; `reg` says that the map leads from `k` to `i`. -/
def Helps (i : InvId) (k : CorrId) (c : ConnId) (a : ℕ) (reg : Prop) : Frame → Prop
  | .sent j d (.recheck l) => j = i ∧ d = c ∧ l = k
  | .permission j l (.connectionClosed d) pc => j = i ∧ d = c ∧ l = k ∧
      (pc = .load ∨ pc = .readId a ∨ pc = .cas a)
  | .closing d .startVisit => d = c ∧ reg
  | .closing d (.visit todo toFail) => d = c ∧ (k ∈ todo ∧ reg ∨ (k, i) ∈ toFail)
  | .closing d (.failNext toFail) => d = c ∧ (k, i) ∈ toFail
  | .closing d (.deregister l j) => d = c ∧ (l, j) = (k, i)
  | _ => False

theorem Helps.mono {i : InvId} {k : CorrId} {c : ConnId} {a : ℕ} {reg reg' : Prop} {f : Frame}
    (h : Helps i k c a reg f) (hreg : reg → reg') : Helps i k c a reg' f := by
  match f, h with
  | .sent _ _ (.recheck _), h => exact h
  | .permission _ _ (.connectionClosed _) _, h => exact h
  | .closing _ .startVisit, h => exact ⟨h.1, hreg h.2⟩
  | .closing _ (.visit _ _), h => exact ⟨h.1, h.2.imp (fun hk => ⟨hk.1, hreg hk.2⟩) id⟩
  | .closing _ (.failNext _), h => exact h
  | .closing _ (.deregister _ _), h => exact h

/-- Who waits on a connection is registered while it is alive, and attended to when
it is dead. -/
structure Attended (s : Client) (frames : List Frame) : Prop where
  closed : ∀ c pc, .closing c pc ∈ frames → pc = .cas ∨ c ∉ s.alive
  registered : ∀ i < s.created, ∀ a c, (s.invocation i).sendConnection = some ⟨a, some c⟩ →
    c ∈ s.alive → s.invocations (s.currentId i) = some i
  helped : ∀ i < s.created, ∀ a c, (s.invocation i).sendConnection = some ⟨a, some c⟩ →
    c ∉ s.alive → ∃ f ∈ frames,
      Helps i (s.currentId i) c a (s.invocations (s.currentId i) = some i) f

namespace Attended

variable {s : Client} {f : Frame} {others frames frames' : List Frame}
  {threads : List ServiceThread} {choice : Choice} {e : ServiceEffect} {i : InvId} {a : ℕ}
  {c : ConnId}

theorem perm (h : Attended s frames) (hp : frames.Perm frames') : Attended s frames' where
  closed := fun c pc hmem => h.closed c pc (hp.mem_iff.mpr hmem)
  registered := h.registered
  helped := by
    intro i hi a c hx hc
    obtain ⟨f, hf, hh⟩ := h.helped i hi a c hx hc
    exact ⟨f, hp.mem_iff.mp hf, hh⟩

section

variable (hs : Sound s (f :: others))

include hs

theorem waiting (hi : i < s.created) (hx : (s.invocation i).sendConnection = some ⟨a, some c⟩) :
    drives i f = 0 ∧ (s.invocation i).promise = none :=
  hs.open_of_published hi (by simp [published, hx])

/-- Another thread can erase the entry of a waiting invocation only when it closes
the connection. -/
theorem closing_eq (hx : (s.invocation i).sendConnection = some ⟨a, some c⟩) {d : ConnId}
    (hf : f = .closing d (.deregister (s.currentId i) i)) : d = c := by
  have hw : Claim.Holds s (.waits d (s.currentId i) i) :=
    hs.fragile f mem_cons_self _ (by rw [hf]; simp [Closing.items])
  have hc : some c = some d := hw rfl _ hx
  exact (some.inj hc).symm

theorem helps_fire (he : fire s threads choice f = some e) (hi : i < s.created) (hc : c ∉ s.alive)
    (hx : (s.invocation i).sendConnection = some ⟨a, some c⟩)
    (hx' : (e.shared.invocation i).sendConnection = some ⟨a, some c⟩) {reg : Prop}
    (hreg : reg ↔ s.invocations (s.currentId i) = some i) (hh : Helps i (s.currentId i) c a reg f) :
    ∃ g ∈ e.frames, Helps i (s.currentId i) c a reg g := by
  match f, hh with
  | .sent j d (.recheck k), hh =>
    obtain ⟨rfl, rfl, rfl⟩ := hh
    simp only [fire, fireSent, hc, if_false, some.injEq] at he
    subst he
    exact ⟨_, mem_cons_self, rfl, rfl, rfl, .inl rfl⟩
  | .permission j k (.connectionClosed d) pc, hh =>
    obtain ⟨rfl, rfl, rfl, rfl | rfl | rfl⟩ := hh
    · simp only [fire, firePermission, hx, some.injEq] at he
      subst he
      exact ⟨_, mem_cons_self, rfl, rfl, rfl, .inr (.inl rfl)⟩
    · simp only [fire, firePermission, if_true, some.injEq] at he
      subst he
      exact ⟨_, mem_cons_self, rfl, rfl, rfl, .inr (.inr rfl)⟩
    · simp only [fire, firePermission, hx, map_some, if_true, some.injEq] at he
      subst he
      simp at hx'
  | .closing d .startVisit, hh =>
    obtain ⟨rfl, hr⟩ := hh
    cases he
    refine ⟨_, mem_cons_self, rfl, .inl ⟨?_, hr⟩⟩
    have hlt : s.currentId i < s.nextCallId := hs.base.ids_lt i hi _
    simp [Client.keys, hlt, hreg.mp hr]
  | .closing d (.visit todo toFail), hh =>
    obtain ⟨rfl, hcases⟩ := hh
    simp only [fire, fireClosing] at he
    split at he
    · rename_i k
      cases he
      refine ⟨_, mem_cons_self, rfl, ?_⟩
      rcases hcases with ⟨htodo, hr⟩ | hfail
      · by_cases hk : s.currentId i = k
        · -- the visit reaches the entry while it is still there
          have hwaits : waitsOn s d k = some (k, i) := by
            simp [waitsOn, ← hk, hreg.mp hr, hx]
          exact .inr (by simp [hwaits, hk])
        · exact .inl ⟨mem_filter.mpr ⟨htodo, by simpa using hk⟩, hr⟩
      · exact .inr (mem_append_left _ hfail)
    · split at he <;> cases he
      rename_i hempty
      have hfail := hcases.resolve_left fun hk => by simp [hempty] at hk
      exact ⟨_, mem_cons_self, rfl, hfail⟩
    · cases he
  | .closing d (.failNext toFail), hh =>
    obtain ⟨rfl, hmem⟩ := hh
    cases toFail with
    | nil => cases hmem
    | cons p toFail =>
      cases he
      rcases mem_cons.mp hmem with heq | hmem
      · exact ⟨_, mem_cons_self, rfl, heq.symm⟩
      · exact ⟨_, mem_cons_of_mem _ mem_cons_self, rfl, hmem⟩
  | .closing d (.deregister k j), hh =>
    obtain ⟨rfl, heq⟩ := hh
    cases heq
    cases he
    exact ⟨_, mem_cons_self, rfl, rfl, rfl, .inl rfl⟩

end

section

variable (h : Attended s (f :: others))

include h

theorem closed_fire (he : fire s threads choice f = some e) {pc : Closing}
    (hmem : .closing c pc ∈ e.frames ++ others) :
    pc = .cas ∨ c ∉ e.shared.alive := by
  have hw := of_fire he
  rcases mem_append.mp hmem with hmem | hmem
  · cases Follows.of_fire he hmem with
    | closing _ pc₀ _ hpc =>
      by_cases hcas : pc₀ = .cas
      · subst hcas
        rcases hw.alive with hsame | ⟨d, hd, -, hdead⟩
        · have hc : c ∉ s.alive := by
            intro hc
            simp only [fire, fireClosing, hc, if_true, some.injEq] at he
            subst he
            have hgone := hc
            rw [← hsame] at hgone
            simp at hgone
          exact .inr (hsame ▸ hc)
        · cases hd
          rw [hdead]
          simp
      · have hdead := (h.closed c pc₀ mem_cons_self).resolve_left hcas
        exact .inr fun hc => hdead (hw.mem_alive hc)
    | socketClosing | shutdownClosing => exact .inl rfl
  · exact (h.closed c pc (mem_cons_of_mem _ hmem)).imp_right
      fun hdead hc => hdead (hw.mem_alive hc)

section

variable (hs : Sound s (f :: others)) (he : fire s threads choice f = some e)

include hs he

theorem registered_fire (hi : i < s.created)
    (hx : (e.shared.invocation i).sendConnection = some ⟨a, some c⟩) (hc : c ∈ e.shared.alive) :
    e.shared.invocations (e.shared.currentId i) = some i := by
  have hw := of_fire he
  rcases hw.sendConnection i with hsame | ⟨d, k, rfl, hpub⟩ | ⟨k, cause, x, -, -, hnone⟩
  · rw [hsame] at hx
    obtain ⟨hd, hopen⟩ := waiting hs hi hx
    have halive := hw.mem_alive hc
    rw [Sound.currentId_eq hw hd]
    rcases hs.registered_or hw hi hd hopen (h.registered i hi a c hx halive) with hreg | ⟨d, hf⟩
    · exact hreg
    · -- the connection would be dead already
      have hmem : .closing d (.deregister (s.currentId i) i) ∈ f :: others := by
        rw [← hf]
        exact mem_cons_self
      have hdead := (h.closed d _ hmem).resolve_left (by simp)
      rw [closing_eq hs hx hf] at hdead
      exact absurd halive hdead
  · have hcur : s.currentId i = k := hs.claim (.current i k) (by simp)
    have hreg : s.invocations k = some i := hs.claim (.registered k i) (by simp)
    rw [hpub, publish_currentId, hcur]
    exact hreg
  · rw [hnone] at hx
    exact absurd hx (by simp)

theorem helped_fire (hi : i < s.created)
    (hx : (e.shared.invocation i).sendConnection = some ⟨a, some c⟩) (hc : c ∉ e.shared.alive) :
    ∃ g ∈ e.frames ++ others, Helps i (e.shared.currentId i) c a
      (e.shared.invocations (e.shared.currentId i) = some i) g := by
  have hw := of_fire he
  rcases hw.sendConnection i with hsame | ⟨d, k, rfl, hpub⟩ | ⟨k, cause, x, -, -, hnone⟩
  · have hx₀ := hsame ▸ hx
    obtain ⟨hd, hopen⟩ := waiting hs hi hx₀
    rw [Sound.currentId_eq hw hd]
    by_cases halive : c ∈ s.alive
    · -- the connection dies in this step, and the entry is in the map
      rcases hw.alive with heq | ⟨d, rfl, hmem, -⟩
      · exact absurd (heq ▸ halive) hc
      · simp only [fire, fireClosing, hmem, if_true, some.injEq] at he
        subst he
        have hcd : c = d := by
          by_contra hne
          exact hc (mem_filter.mpr ⟨halive, by simpa using hne⟩)
        exact ⟨_, mem_cons_self, hcd.symm, h.registered i hi a c hx₀ halive⟩
    · obtain ⟨g, hg, hh⟩ := h.helped i hi a c hx₀ halive
      by_cases hclosing : ∃ d, f = .closing d (.deregister (s.currentId i) i)
      · obtain ⟨d, hf⟩ := hclosing
        have hdc := closing_eq hs hx₀ hf
        subst hf hdc
        cases he
        exact ⟨_, mem_cons_self, rfl, rfl, rfl, .inl rfl⟩
      · have hkeep (hreg : s.invocations (s.currentId i) = some i) :
            e.shared.invocations (s.currentId i) = some i :=
          (hs.registered_or hw hi hd hopen hreg).resolve_right hclosing
        rcases mem_cons.mp hg with rfl | hg
        · obtain ⟨g', hg', hh'⟩ := helps_fire hs he hi halive hx₀ hx Iff.rfl hh
          exact ⟨g', mem_append_left _ hg', hh'.mono hkeep⟩
        · exact ⟨g, mem_append_right _ hg, hh.mono hkeep⟩
  · have hcur : s.currentId i = k := hs.claim (.current i k) (by simp)
    have hnew : e.shared.currentId i = k := by rw [hpub, publish_currentId, hcur]
    rw [hpub, publish_sendConnection_self] at hx
    cases hx
    cases he
    exact ⟨_, mem_cons_self, rfl, rfl, hnew.symm⟩
  · rw [hnone] at hx
    exact absurd hx (by simp)

theorem fire :
    Attended e.shared (e.frames ++ others) where
  closed := fun _ _ hmem => h.closed_fire he hmem
  registered := by
    intro i hi a c hx hc
    rw [(of_fire he).created] at hi
    exact h.registered_fire hs he hi hx hc
  helped := by
    intro i hi a c hx hc
    rw [(of_fire he).created] at hi
    exact h.helped_fire hs he hi hx hc

end

end

theorem initial (settings : Settings) (alive : List ConnId) :
    Attended (start settings alive).shared (start settings alive).frames := by
  refine ⟨?_, ?_, ?_⟩ <;> simp [start, Config.frames]

theorem outside (h : Attended s frames) (he : outside s choice = some e) :
    Attended e.shared (frames ++ e.spawnedFrames) := by
  have ho := Outside.of_outside he
  -- a new invocation has a holder without a connection
  have hold {i : InvId} {a : ℕ} {c : ConnId} (hi : i < e.shared.created)
      (hx : (e.shared.invocation i).sendConnection = some ⟨a, some c⟩) : i < s.created := by
    by_contra hge
    obtain ⟨request, hnew⟩ := ho.new i hi (not_lt.mp hge)
    rw [hnew] at hx
    cases hx
  refine ⟨?_, ?_, ?_⟩
  · intro c pc hmem
    rcases mem_append.mp hmem with hmem | hmem
    · rw [ho.alive]
      exact h.closed c pc hmem
    · cases ho.enters _ hmem
      exact .inl rfl
  · intro i hi a c hx hc
    have hi₀ := hold hi hx
    rw [ho.invocation i hi₀] at hx
    rw [ho.currentId hi₀, ho.invocations]
    exact h.registered i hi₀ a c hx (ho.alive ▸ hc)
  · intro i hi a c hx hc
    have hi₀ := hold hi hx
    rw [ho.invocation i hi₀] at hx
    rw [ho.currentId hi₀, ho.invocations]
    obtain ⟨f, hf, hh⟩ := h.helped i hi₀ a c hx (ho.alive ▸ hc)
    exact ⟨f, mem_append_left _ hf, hh⟩

end Attended

section Runs

variable {settings : Settings} {alive : List ConnId}
  {ok : ServiceConfig → Move Frame Choice → Prop} {events : List Event} {cfg : ServiceConfig}

section

variable (h : Run service ok (start settings alive) events cfg)

include h

theorem Attended.run : Attended cfg.shared cfg.frames :=
  h.frameInvariant (P := fun _ s frames => Attended s frames) (fun hp ha => ha.perm hp)
    (Attended.initial settings alive)
    (fun hrun hframes ha _ he => ha.fire ((Sound.run hrun).perm hframes) he)
    fun _ ha _ he => ha.outside he

/-- A stored connection stays until the permission is granted. -/
theorem published_run {i : InvId} {a : ℕ} {c : ConnId} (hmem : .published i a c ∈ events) :
    (∃ k cause, .granted i k a cause ∈ events) ∨
      i < cfg.shared.created ∧ (cfg.shared.invocation i).sendConnection = some ⟨a, some c⟩ := by
  refine h.frameInvariant (P := fun es s _ => .published i a c ∈ es →
    (∃ k cause, .granted i k a cause ∈ es) ∨
      i < s.created ∧ (s.invocation i).sendConnection = some ⟨a, some c⟩)
    (fun _ hp => hp) (by simp) ?_ ?_ hmem
  · intro es c₁ f choice others threads e hrun hframes hp _ he hmem
    change Spi.fire c₁.shared threads choice f = some e at he
    have hs := (Sound.run hrun).perm hframes
    have hw := of_fire he
    rcases mem_append.mp hmem with hmem | hmem
    · rcases hp hmem with ⟨k, cause, hgranted⟩ | ⟨hi, hx⟩
      · exact .inl ⟨k, cause, mem_append_left _ hgranted⟩
      · rcases hw.sendConnection i with hsame | ⟨d, k, rfl, -⟩ | ⟨k, cause, x, rfl, hx', -⟩
        · exact .inr ⟨hw.created ▸ hi, hsame.trans hx⟩
        · exact absurd (Attended.waiting hs hi hx).1 (by simp)
        · have hxa : x.address = a := by
            rw [hx] at hx'
            cases hx'
            rfl
          have hgranted := fire_cas hx' he
          refine .inl ⟨k, cause, mem_append_right _ ?_⟩
          rw [hgranted.2, hxa]
          exact mem_singleton.mpr rfl
    · have hev : e.event = some (.published i a c) := by simpa using hmem
      cases Emits.of_fire he hev with
      | published i c k =>
        have hi : i < c₁.shared.created :=
          created_of_drives (hs.solid _ mem_cons_self) (by simp)
        have hpub := fire_publish he
        refine .inr ⟨hw.created ▸ hi, ?_⟩
        rw [hpub.1]
        exact publish_sendConnection_self _ i c
  · intro es c₁ choice e hrun hp _ he hmem
    have ho := Outside.of_outside he
    rcases mem_append.mp hmem with hmem | hmem
    · rcases hp hmem with ⟨k, cause, hgranted⟩ | ⟨hi, hx⟩
      · exact .inl ⟨k, cause, mem_append_left _ hgranted⟩
      · exact .inr ⟨hi.trans_le ho.created, by rw [ho.invocation i hi]; exact hx⟩
    · have hev : e.event = some (.published i a c) := by simpa using hmem
      exact (ho.not_event hev (by simp) (by simp)).elim

end

/-- When the connection `c` is dead and the calls that deal with it are over, the
permission of every attempt that has been sent on it has been granted. -/
theorem published_granted (h : Run service ok (start settings alive) events cfg) {c : ConnId}
    (hdead : c ∉ cfg.shared.alive) (hsent : ∀ i k, .sent i c (.recheck k) ∉ cfg.frames)
    (hclosing : ∀ pc, .closing c pc ∉ cfg.frames)
    (hpermission : ∀ i k pc, .permission i k (.connectionClosed c) pc ∉ cfg.frames) {i : InvId}
    {a : ℕ} (hmem : .published i a c ∈ events) : ∃ k cause, .granted i k a cause ∈ events := by
  refine (published_run h hmem).resolve_right ?_
  rintro ⟨hi, hx⟩
  obtain ⟨f, hf, hh⟩ := (Attended.run h).helped i hi a c hx hdead
  match f, hh with
  | .sent _ _ (.recheck k), hh => exact hsent _ _ (hh.2.1 ▸ hf)
  | .permission _ _ (.connectionClosed _) _, hh => exact hpermission _ _ _ (hh.2.1 ▸ hf)
  | .closing _ .startVisit, hh => exact hclosing _ (hh.1 ▸ hf)
  | .closing _ (.visit _ _), hh => exact hclosing _ (hh.1 ▸ hf)
  | .closing _ (.failNext _), hh => exact hclosing _ (hh.1 ▸ hf)
  | .closing _ (.deregister _ _), hh => exact hclosing _ (hh.1 ▸ hf)

end Runs

/-- The connection is closed between the two looks of the sender: the closing
thread takes the permission, and the sender finds it taken. -/
def closedPicks : List (Pick Choice) :=
  .outside (.invoke {}) :: .thread 0 (.candidates [7]) :: List.replicate 5 (.thread 0 .go) ++
    [.outside (.close 7), .thread 1 .go, .thread 1 .go, .thread 1 (.key 1), .thread 1 .go,
      .thread 1 .go, .thread 1 .go, .thread 1 .go, .thread 1 .go, .thread 1 .go, .thread 0 .go,
      .thread 0 .go, .thread 1 .go, .thread 1 .go, .thread 1 .go, .thread 1 .go, .thread 1 .go,
      .thread 1 .go, .thread 1 .go]

theorem published_granted_closed :
    ∃ events c, Run service Always (start {} [7]) events c ∧ .published 0 1 7 ∈ events ∧
      ∃ k cause, .granted 0 k 1 cause ∈ events := by
  have hexec : ∃ events c, service.execAll (fun _ _ => true) (start {} [7]) closedPicks =
      some (events, c) ∧ c.shared.alive = [] ∧ c.frames = [.socket 7 .drain] ∧
      events = [.invoked 0, .published 0 1 7, .granted 0 1 1 (.connectionClosed 7)] :=
    ⟨_, _, rfl, rfl, rfl, rfl⟩
  obtain ⟨events, c, hexec, halive, hframes, hevents⟩ := hexec
  have hmem : .published 0 1 7 ∈ events := by simp [hevents]
  have hrun := (Run.of_execAll hexec).always
  exact ⟨events, c, hrun, hmem, published_granted hrun (by simp [halive]) (by simp [hframes])
    (by simp [hframes]) (by simp [hframes]) hmem⟩

end HazelcastClient.Spi
