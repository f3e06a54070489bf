import HazelcastClient.NearCache.Operations

/-!
# A near cache without stale records

A slot that is not unmarked has exactly one owner: the reader that has marked it
and has not yet unmarked it (`Coherent.owned`). So a mark that an invalidation
removes is noticed by the only reader that could store an old value for the key,
and nobody else gives the slot free in the meantime.

`Transition` lists what the steps of the threads do; the fields of `Coherent` are
preserved one by one.
-/

namespace HazelcastClient.NearCache

open Interleaving List Cache Effect

variable {K V : Type} {n : ℕ} {key : K} {pc : Invalidate}

/-! ## Marks -/

@[simp] theorem setMark_marks_self (s : Cache K V n) (slot : Fin n) (mark : Mark) :
    (s.setMark slot mark).marks slot = mark := by
  simp [setMark]

theorem setMark_marks_of_ne (s : Cache K V n) {slot slot' : Fin n} (mark : Mark)
    (h : slot' ≠ slot) : (s.setMark slot mark).marks slot' = s.marks slot' := by
  simp [setMark, h]

section

variable (markers : Markers K n) (s : Cache K V n)

theorem tryRemove_marks (key : K) (slot : Fin n) :
    (s.tryRemove markers key).1.marks slot = s.marks slot ∨
      s.marks slot = .marked ∧ (s.tryRemove markers key).1.marks slot = .removed := by
  unfold tryRemove casState
  split
  · rename_i hmarked
    by_cases hslot : slot = markers.getSlot key
    · exact .inr ⟨hslot ▸ hmarked, by rw [hslot, setMark_marks_self]⟩
    · exact .inl (setMark_marks_of_ne s _ hslot)
  · exact .inl rfl

/-- A reader whose slot is tried to be removed loses its mark. -/
theorem tryRemove_marks_self (key : K) (h : s.marks (markers.getSlot key) ≠ .unmarked) :
    (s.tryRemove markers key).1.marks (markers.getSlot key) = .removed := by
  unfold tryRemove casState
  split
  · exact setMark_marks_self s _ _
  · rename_i hne
    cases hm : s.marks (markers.getSlot key) with
    | unmarked => exact absurd hm h
    | marked => exact absurd hm hne
    | removed => rfl

theorem tryRemove_marks_eq_unmarked (key : K) (slot : Fin n) :
    (s.tryRemove markers key).1.marks slot = .unmarked ↔ s.marks slot = .unmarked := by
  rcases tryRemove_marks markers s key slot with hsame | ⟨hmarked, hremoved⟩
  · rw [hsame]
  · simp [hmarked, hremoved]

end

@[simp] theorem tryRemove_store (markers : Markers K n) (s : Cache K V n) (key : K) :
    (s.tryRemove markers key).1.store = s.store := by
  unfold tryRemove casState
  split <;> rfl

@[simp] theorem tryRemove_changes (markers : Markers K n) (s : Cache K V n) (key : K) :
    (s.tryRemove markers key).1.changes = s.changes := by
  unfold tryRemove casState
  split <;> rfl

/-! ## What a step does -/

def Get.owns : Get V → Bool
  | .remoteRead marked => marked
  | .put _ | .tryUnmark | .invalidating _ | .forceUnmark => true
  | .lookup | .expire | .tryMark => false

def owns (markers : Markers K n) (slot : Fin n) : Frame K V → ℕ
  | .get key pc => if markers.getSlot key = slot ∧ pc.owns = true then 1 else 0
  | .invalidate _ _ _ => 0

/-- Moves that leave the shared state alone and keep what the thread owns. -/
inductive Plain : Frame K V → List (Frame K V) → Prop
  | hit (key : K) : Plain (.get key .lookup) []
  | miss (key : K) : Plain (.get key .lookup) [.get key .tryMark]
  | expired (key : K) : Plain (.get key .lookup) [.get key .expire]
  | unmarked (key : K) : Plain (.get key .tryMark) [.get key (.remoteRead false)]
  | readOnly (key : K) : Plain (.get key (.remoteRead false)) []
  | full (key : K) (record : Record V) :
      Plain (.get key (.put record)) [.get key .tryUnmark]

section Transitions

variable [DecidableEq K]

inductive Transition (markers : Markers K n) (s : Cache K V n) :
    Frame K V → List (Frame K V) → Option (Event K) → Cache K V n → Prop
  | plain (f : Frame K V) (next : List (Frame K V)) (h : Plain f next) :
      Transition markers s f next none s
  | expire (key : K) : Transition markers s (.get key .expire) [.get key .tryMark] none
      (s.removeRecord key)
  | mark (key : K) (h : s.marks (markers.getSlot key) = .unmarked) :
      Transition markers s (.get key .tryMark) [.get key (.remoteRead true)] none
        (s.setMark (markers.getSlot key) .marked)
  | read (key : K) : Transition markers s (.get key (.remoteRead true))
      [.get key (.put ⟨s.server key, s.changes key⟩)] none s
  | put (key : K) (record : Record V) : Transition markers s (.get key (.put record))
      [.get key .tryUnmark] none (s.putRecord key record)
  | unmark (key : K) (h : s.marks (markers.getSlot key) = .marked) :
      Transition markers s (.get key .tryUnmark) [] none
        (s.setMark (markers.getSlot key) .unmarked)
  | unmarkFailed (key : K) (h : s.marks (markers.getSlot key) ≠ .marked) :
      Transition markers s (.get key .tryUnmark) [.get key (.invalidating .tryRemove)] none s
  | ownTryRemove (key : K) : Transition markers s (.get key (.invalidating .tryRemove))
      [.get key (.invalidating .remove)] none (s.tryRemove markers key).1
  | ownRemove (key : K) : Transition markers s (.get key (.invalidating .remove))
      [.get key .forceUnmark] none (s.removeRecord key)
  | forceUnmark (key : K) : Transition markers s (.get key .forceUnmark) [] none
      (s.setMark (markers.getSlot key) .unmarked)
  | tryRemove (key : K) (change : ℕ) : Transition markers s (.invalidate key change .tryRemove)
      [.invalidate key change .remove] (some (.tried key change)) (s.tryRemove markers key).1
  | remove (key : K) (change : ℕ) : Transition markers s (.invalidate key change .remove)
      [] (some (.processed key change)) (s.removeRecord key)

namespace Transition

variable {markers : Markers K n} {s s' : Cache K V n} {f : Frame K V} {next : List (Frame K V)}
  {ev : Option (Event K)} {choice : Choice K V}
  {e : Effect (Cache K V n) Unit (Frame K V) (Event K)}

theorem of_fire (he : fire markers s choice f = some e) :
    Transition markers s f e.next e.event e.shared ∧ e.spawned = [] := by
  revert he
  cases f with
  | get key pc =>
    dsimp only [fire]
    fun_cases fireGet markers s choice key pc <;> rintro ⟨⟩
    case case1 => exact ⟨plain _ _ (.miss key), rfl⟩
    case case2 => exact ⟨plain _ _ (.expired key), rfl⟩
    case case3 => exact ⟨plain _ _ (.hit key), rfl⟩
    case case4 => exact ⟨expire key, rfl⟩
    case case5 hcas =>
      simp only [tryMark, casState] at hcas
      split at hcas <;> cases hcas
      · exact ⟨mark key ‹_›, rfl⟩
      · exact ⟨plain _ _ (.unmarked key), rfl⟩
    case case6 marked =>
      cases marked with
      | true => exact ⟨read key, rfl⟩
      | false => exact ⟨plain _ _ (.readOnly key), rfl⟩
    case case7 record _ => exact ⟨plain _ _ (.full key record), rfl⟩
    case case9 record _ => exact ⟨put key record, rfl⟩
    case case10 hcas =>
      simp only [tryUnmark, casState] at hcas
      split at hcas <;> cases hcas
      · exact ⟨unmark key ‹_›, rfl⟩
      · exact ⟨unmarkFailed key ‹_›, rfl⟩
    case case11 pc _ _ hpc | case12 pc _ hpc =>
      cases pc <;> cases hpc
      first | exact ⟨ownTryRemove key, rfl⟩ | exact ⟨ownRemove key, rfl⟩
    case case13 => exact ⟨forceUnmark key, rfl⟩
  | invalidate key change pc =>
    cases pc <;> rintro ⟨⟩
    · exact ⟨tryRemove key change, rfl⟩
    · exact ⟨remove key change, rfl⟩

section

variable (t : Transition markers s f next ev s') {change : ℕ}

include t

theorem changes : s'.changes = s.changes := by
  cases t with
  | ownTryRemove key | tryRemove key => exact tryRemove_changes markers s key
  | _ => rfl

theorem removed {slot : Fin n} (h : s.marks slot = .removed)
    (hf : ∀ key, f = .get key .forceUnmark → markers.getSlot key ≠ slot) :
    s'.marks slot = .removed := by
  have hset (key : K) (mark : Mark) (hne : markers.getSlot key ≠ slot) :
      (s.setMark (markers.getSlot key) mark).marks slot = .removed := by
    rw [setMark_marks_of_ne s _ hne.symm, h]
  have htry (key : K) : (s.tryRemove markers key).1.marks slot = .removed :=
    (tryRemove_marks markers s key slot).elim (fun hsame => hsame.trans h) fun hnew => hnew.2
  cases t with
  | mark key hm | unmark key hm =>
    refine hset key _ fun heq => ?_
    rw [heq, h] at hm
    cases hm
  | forceUnmark key => exact hset key _ (hf key rfl)
  | ownTryRemove key | tryRemove key => exact htry key
  | plain | expire | read | put | unmarkFailed | ownRemove | remove => exact h

theorem store {record : Record V} (h : s'.store key = some record) :
    s.store key = some record ∨
      f = .get key (.put record) ∧ next = [.get key .tryUnmark] := by
  have hremove (key' : K) (hr : (s.removeRecord key').store key = some record) :
      s.store key = some record := by
    by_cases hkey : key = key'
    · simp [removeRecord, hkey] at hr
    · simpa [removeRecord, hkey] using hr
  cases t with
  | expire key' | ownRemove key' | remove key' => exact .inl (hremove key' h)
  | put key' record' =>
    by_cases hkey : key = key'
    · subst hkey
      simp only [putRecord, Function.update_self, Option.some.injEq] at h
      exact .inr ⟨by rw [h], rfl⟩
    · exact .inl (by simpa [putRecord, hkey] using h)
  | ownTryRemove key' | tryRemove key' =>
    rw [tryRemove_store] at h
    exact .inl h
  | plain | mark | read | unmark | unmarkFailed | forceUnmark => exact .inl h

theorem of_invalidate (h : .invalidate key change pc ∈ next) :
    f = .invalidate key change .tryRemove ∧ ev = some (.tried key change) := by
  cases t with
  | plain _ _ hp => cases hp <;> simp at h
  | tryRemove key' change' =>
    cases mem_singleton.mp h
    exact ⟨rfl, rfl⟩
  | _ => simp at h

theorem of_tried (h : .tried key change ∈ ev.toList) :
    f = .invalidate key change .tryRemove ∧ s' = (s.tryRemove markers key).1 := by
  cases t with
  | tryRemove key' change' =>
    cases mem_singleton.mp h
    exact ⟨rfl, rfl⟩
  | _ => simp at h

theorem of_processed (h : .processed key change ∈ ev.toList) :
    f = .invalidate key change .remove ∧ s' = s.removeRecord key := by
  cases t with
  | remove key' change' =>
    cases mem_singleton.mp h
    exact ⟨rfl, rfl⟩
  | _ => simp at h

end

end Transition

end Transitions

/-! ## The invariant -/

/-- The reader is past its put and is going to remove the record again if it finds
its mark removed. -/
def Rechecks (key : K) (f : Frame K V) : Prop :=
  f = .get key .tryUnmark ∨ ∃ pc, f = .get key (.invalidating pc)

def Resets (key : K) (f : Frame K V) : Prop :=
  f = .get key .forceUnmark ∨ ∃ pc, f = .get key (.invalidating pc)

structure Coherent (markers : Markers K n) (events : List (Event K)) (s : Cache K V n)
    (frames : List (Frame K V)) : Prop where
  owned : ∀ slot, (frames.map (owns markers slot)).sum = if s.marks slot = .unmarked then 0 else 1
  resets : ∀ key, ∀ f ∈ frames, Resets key f → s.marks (markers.getSlot key) = .removed
  reported : ∀ key change pc, .invalidate key change pc ∈ frames → change ≤ s.changes key
  removing : ∀ key change, .invalidate key change .remove ∈ frames → .tried key change ∈ events
  tried : ∀ key change, .tried key change ∈ events → change ≤ s.changes key
  processed : ∀ key change, .processed key change ∈ events → .tried key change ∈ events
  /-- A reader with an old value has lost its mark. -/
  putting : ∀ key record, .get key (.put record) ∈ frames → ∀ change, .tried key change ∈ events →
    change ≤ record.version ∨ s.marks (markers.getSlot key) = .removed
  /-- An old record is going to be removed. -/
  stored : ∀ key record, s.store key = some record → ∀ change, .processed key change ∈ events →
    change ≤ record.version ∨
      s.marks (markers.getSlot key) = .removed ∧ ∃ f ∈ frames, Rechecks key f

theorem owns_of_rechecks (markers : Markers K n) {f : Frame K V} (h : Rechecks key f) :
    owns markers (markers.getSlot key) f = 1 := by
  rcases h with rfl | ⟨pc, rfl⟩ <;> simp [owns, Get.owns]

theorem owns_of_resets (markers : Markers K n) {f : Frame K V} (h : Resets key f) :
    owns markers (markers.getSlot key) f = 1 := by
  rcases h with rfl | ⟨pc, rfl⟩ <;> simp [owns, Get.owns]

namespace Coherent

variable {markers : Markers K n} {events : List (Event K)} {s s' : Cache K V n} {f g : Frame K V}
  {frames frames' others next : List (Frame K V)} {ev : Option (Event K)} {slot : Fin n} {key : K}
  {change : ℕ} {record : Record V}

section

variable (h : Coherent markers events s frames)

include h

theorem perm (hp : frames.Perm frames') : Coherent markers events s frames' := by
  obtain ⟨owned, resets, reported, removing, tried, processed, putting, stored⟩ := h
  simp only [hp.mem_iff, sum_map_of_perm _ hp] at owned resets reported removing putting stored
  exact ⟨owned, resets, reported, removing, tried, processed, putting, stored⟩

theorem ne_unmarked (hf : f ∈ frames) (ho : owns markers slot f = 1) :
    s.marks slot ≠ .unmarked := by
  intro hm
  have hle := weight_le_of_mem (owns markers slot) hf
  rw [h.owned slot, if_pos hm, ho] at hle
  exact absurd hle (by decide)

theorem add (howns : ∀ slot, owns markers slot f = 0) (hresets : ∀ key, ¬ Resets key f)
    (hreported : ∀ key change pc, f = .invalidate key change pc → change ≤ s.changes key)
    (hremoving : ∀ key change, f ≠ .invalidate key change .remove)
    (hputting : ∀ key record, f ≠ .get key (.put record)) :
    Coherent markers events s (frames ++ [f]) where
  owned := by
    intro slot
    rw [map_append, sum_append, map_singleton, sum_singleton, howns slot,
      Nat.add_zero]
    exact h.owned slot
  resets := by
    intro key g hg hr
    rcases mem_append.mp hg with hold | hnew
    · exact h.resets key g hold hr
    · cases mem_singleton.mp hnew
      exact absurd hr (hresets key)
  reported := by
    intro key change pc hg
    rcases mem_append.mp hg with hold | hnew
    · exact h.reported key change pc hold
    · exact hreported key change pc (mem_singleton.mp hnew).symm
  removing := by
    intro key change hg
    rcases mem_append.mp hg with hold | hnew
    · exact h.removing key change hold
    · exact absurd (mem_singleton.mp hnew).symm (hremoving key change)
  tried := h.tried
  processed := h.processed
  putting := by
    intro key record hg
    rcases mem_append.mp hg with hold | hnew
    · exact h.putting key record hold
    · exact absurd (mem_singleton.mp hnew).symm (hputting key record)
  stored := by
    intro key record hr change hev
    refine (h.stored key record hr change hev).imp_right ?_
    rintro ⟨hm, g, hg, hcheck⟩
    exact ⟨hm, g, mem_append_left _ hg, hcheck⟩

end

theorem initial (n : ℕ) (markers : Markers K n) (server : K → Option V) :
    Coherent markers [] (start n server).shared (start n server).frames := by
  constructor <;> simp [start, Config.frames]

theorem exclusive (h : Coherent markers events s (f :: others)) (hf : owns markers slot f = 1)
    (hg : g ∈ others) : owns markers slot g = 0 := by
  have hsum := h.owned slot
  rw [if_neg (h.ne_unmarked mem_cons_self hf), map_cons, sum_cons, hf] at hsum
  have hle := weight_le_of_mem (owns markers slot) hg
  omega

/-! ## One step -/

variable [DecidableEq K] (h : Coherent markers events s (f :: others))
  (t : Transition markers s f next ev s')

include h t

/-- A removal that another thread is to notice is not ended by the thread that runs. -/
theorem removed_of_owner (hg : g ∈ others) (ho : owns markers slot g = 1)
    (hm : s.marks slot = .removed) : s'.marks slot = .removed := by
  refine t.removed hm ?_
  rintro key rfl rfl
  have hzero := h.exclusive (owns_of_resets markers (.inl rfl)) hg
  omega

theorem owned_step (slot : Fin n) :
    ((next ++ others).map (owns markers slot)).sum =
      if s'.marks slot = .unmarked then 0 else 1 := by
  have hsum := h.owned slot
  rw [map_cons, sum_cons] at hsum
  rw [map_append, sum_append]
  -- most steps keep what the thread owns
  have hkeep (hnext : (next.map (owns markers slot)).sum = owns markers slot f)
      (hmark : s'.marks slot = .unmarked ↔ s.marks slot = .unmarked) :
      (next.map (owns markers slot)).sum + (others.map (owns markers slot)).sum =
        if s'.marks slot = .unmarked then 0 else 1 := by
    rw [hnext, hsum]
    simp only [hmark]
  -- the others do not own the slot that the thread gives free
  have hfree (hf : owns markers slot f = 1) : (others.map (owns markers slot)).sum = 0 := by
    rw [if_neg (h.ne_unmarked mem_cons_self hf), hf] at hsum
    omega
  cases t with
  | plain _ _ hp =>
    refine hkeep ?_ Iff.rfl
    cases hp <;> simp [owns, Get.owns]
  | expire key | read key | put key | unmarkFailed key | ownRemove key | remove key =>
    exact hkeep (by simp [owns, Get.owns]) Iff.rfl
  | ownTryRemove key | tryRemove key =>
    exact hkeep (by simp [owns, Get.owns]) (tryRemove_marks_eq_unmarked markers s key slot)
  | mark key hm =>
    by_cases hslot : markers.getSlot key = slot
    · subst hslot
      rw [if_pos hm] at hsum
      simp [owns, Get.owns, (Nat.add_eq_zero_iff.mp hsum).2]
    · refine hkeep (by simp [owns, hslot]) ?_
      rw [setMark_marks_of_ne s _ (Ne.symm hslot)]
  | unmark key | forceUnmark key =>
    by_cases hslot : markers.getSlot key = slot
    · subst hslot
      simp [hfree (by simp [owns, Get.owns])]
    · refine hkeep (by simp [owns, hslot]) ?_
      rw [setMark_marks_of_ne s _ (Ne.symm hslot)]

theorem resets_step (hg : g ∈ next ++ others) (hr : Resets key g) :
    s'.marks (markers.getSlot key) = .removed := by
  rcases mem_append.mp hg with hnew | hold
  · cases t with
    | plain _ _ hp => cases hp <;> rcases hr with rfl | ⟨pc, rfl⟩ <;> simp at hnew
    | unmarkFailed _ hm =>
      rw [mem_singleton] at hnew
      subst hnew
      rcases hr with hr | ⟨pc, hr⟩ <;> cases hr
      have hne := h.ne_unmarked mem_cons_self (owns_of_rechecks markers (.inl rfl))
      cases hmark : s.marks (markers.getSlot key) with
      | unmarked => exact absurd hmark hne
      | marked => exact absurd hmark hm
      | removed => rfl
    | ownTryRemove _ =>
      rw [mem_singleton] at hnew
      subst hnew
      rcases hr with hr | ⟨pc, hr⟩ <;> cases hr
      have hm := h.resets key _ mem_cons_self (.inr ⟨_, rfl⟩)
      exact tryRemove_marks_self markers s key (by simp [hm])
    | ownRemove _ =>
      rw [mem_singleton] at hnew
      subst hnew
      rcases hr with hr | ⟨pc, hr⟩ <;> cases hr
      exact h.resets key _ mem_cons_self (.inr ⟨_, rfl⟩)
    | expire | mark | read | put | unmark | forceUnmark | tryRemove | remove =>
      rcases hr with rfl | ⟨pc, rfl⟩ <;> simp at hnew
  · exact h.removed_of_owner t hold (owns_of_resets markers hr)
      (h.resets key g (mem_cons_of_mem f hold) hr)

theorem reported_step (hg : .invalidate key change pc ∈ next ++ others) :
    change ≤ s'.changes key := by
  rw [t.changes]
  rcases mem_append.mp hg with hnew | hold
  · obtain ⟨rfl, -⟩ := t.of_invalidate hnew
    exact h.reported key change .tryRemove mem_cons_self
  · exact h.reported key change pc (mem_cons_of_mem f hold)

theorem removing_step (hg : .invalidate key change .remove ∈ next ++ others) :
    .tried key change ∈ events ++ ev.toList := by
  rcases mem_append.mp hg with hnew | hold
  · obtain ⟨-, rfl⟩ := t.of_invalidate hnew
    simp
  · exact mem_append_left _ (h.removing key change (mem_cons_of_mem f hold))

theorem tried_step (hev : .tried key change ∈ events ++ ev.toList) : change ≤ s'.changes key := by
  rw [t.changes]
  rcases mem_append.mp hev with hold | hnew
  · exact h.tried key change hold
  · obtain ⟨rfl, -⟩ := t.of_tried hnew
    exact h.reported key change .tryRemove mem_cons_self

theorem processed_step (hev : .processed key change ∈ events ++ ev.toList) :
    .tried key change ∈ events ++ ev.toList := by
  refine mem_append_left _ ?_
  rcases mem_append.mp hev with hold | hnew
  · exact h.processed key change hold
  · obtain ⟨rfl, -⟩ := t.of_processed hnew
    exact h.removing key change mem_cons_self

theorem putting_step (hg : .get key (.put record) ∈ next ++ others)
    (hev : .tried key change ∈ events ++ ev.toList) :
    change ≤ record.version ∨ s'.marks (markers.getSlot key) = .removed := by
  rcases mem_append.mp hg with hnew | hold
  · cases t with
    | plain _ _ hp => cases hp <;> simp at hnew
    | read key' =>
      -- the read sees every change that has been reported
      cases mem_singleton.mp hnew
      exact .inl (h.tried key change (by simpa using hev))
    | _ => simp at hnew
  · have howns : owns markers (markers.getSlot key) (.get key (.put record)) = 1 := by
      simp [owns, Get.owns]
    rcases mem_append.mp hev with hbefore | hnow
    · exact (h.putting key record (mem_cons_of_mem f hold) change hbefore).imp_right
        (h.removed_of_owner t hold howns)
    · obtain ⟨rfl, rfl⟩ := t.of_tried hnow
      exact .inr (tryRemove_marks_self markers s key
        (h.ne_unmarked (mem_cons_of_mem _ hold) howns))

/-- An old record is put by a reader that has lost its mark, and such a reader does
not finish before it has removed the record. -/
theorem stored_step (hr : s'.store key = some record)
    (hev : .processed key change ∈ events ++ ev.toList) :
    change ≤ record.version ∨ s'.marks (markers.getSlot key) = .removed ∧
      ∃ g ∈ next ++ others, Rechecks key g := by
  have hbefore : .processed key change ∈ events := by
    rcases mem_append.mp hev with hold | hnow
    · exact hold
    · obtain ⟨-, rfl⟩ := t.of_processed hnow
      simp [removeRecord] at hr
  rcases t.store hr with hold | ⟨rfl, rfl⟩
  · rcases h.stored key record hold change hbefore with hle | ⟨hm, g, hg, hcheck⟩
    · exact .inl hle
    · refine .inr ?_
      rcases mem_cons.mp hg with rfl | hother
      · rcases hcheck with rfl | ⟨pc, rfl⟩
        · cases t with
          | plain _ _ hp => cases hp
          | unmark _ hmarked =>
            rw [hm] at hmarked
            cases hmarked
          | unmarkFailed _ _ => exact ⟨hm, _, mem_cons_self, .inr ⟨_, rfl⟩⟩
        · cases t with
          | plain _ _ hp => cases hp
          | ownTryRemove _ =>
            exact ⟨tryRemove_marks_self markers s key (by simp [hm]), _, mem_cons_self,
              .inr ⟨_, rfl⟩⟩
          | ownRemove _ => simp [removeRecord] at hr
      · exact ⟨h.removed_of_owner t hother (owns_of_rechecks markers hcheck) hm, g,
          mem_append_right _ hother, hcheck⟩
  · refine (h.putting key record mem_cons_self change (h.processed key change hbefore)).imp
      id fun hm => ?_
    exact ⟨t.removed hm (by simp), _, mem_cons_self, .inl rfl⟩

theorem step : Coherent markers (events ++ ev.toList) s' (next ++ others) where
  owned := h.owned_step t
  resets := fun _ _ hg hr => h.resets_step t hg hr
  reported := fun _ _ _ hg => h.reported_step t hg
  removing := fun _ _ hg => h.removing_step t hg
  tried := fun _ _ hev => h.tried_step t hev
  processed := fun _ _ hev => h.processed_step t hev
  putting := fun _ _ hg _ hev => h.putting_step t hg hev
  stored := fun _ _ hr _ hev => h.stored_step t hr hev

omit h t

theorem remove (h : Coherent markers events s frames) (key : K) :
    Coherent markers events (s.removeRecord key) frames := by
  refine { h with stored := fun key' record hr => h.stored key' record ?_ }
  by_cases hkey : key' = key
  · simp [removeRecord, hkey] at hr
  · simpa [removeRecord, hkey] using hr

theorem outside {choice : Choice K V} {e : Effect (Cache K V n) Unit (Frame K V) (Event K)}
    (h : Coherent markers events s frames) (he : outside s choice = some e) :
    Coherent markers (events ++ e.event.toList) e.shared (frames ++ e.spawnedFrames) := by
  cases choice with
  | get key =>
    cases he
    -- a new reader owns nothing and has nothing to put
    simpa [spawnedFrames] using h.add (f := .get key .lookup) (by simp [owns, Get.owns])
      (by simp [Resets]) (by simp) (by simp) (by simp)
  | change key value =>
    cases he
    have hle (key' : K) : s.changes key' ≤ (s.change key value).changes key' := by
      by_cases hkey : key' = key <;> simp [change, hkey]
    simp only [spawnedFrames, flatMap_nil, append_nil, Option.toList_none]
    exact { h with
      reported := fun key' c pc hf => (h.reported key' c pc hf).trans (hle key')
      tried := fun key' c hev => (h.tried key' c hev).trans (hle key') }
  | invalidate key change =>
    simp only [NearCache.outside] at he
    split at he <;> cases he
    rename_i hle
    simpa [spawnedFrames] using h.add (f := .invalidate key change .tryRemove)
      (by simp [owns]) (by simp [Resets]) (by simpa using hle) (by simp) (by simp)
  | evict key =>
    cases he
    simp only [spawnedFrames, flatMap_nil, append_nil, Option.toList_none]
    exact h.remove key
  | _ => cases he

theorem run {server : K → Option V} {c : Config (Cache K V n) Unit (Frame K V)}
    (h : Run (cachedMap markers) Always (start n server) events c) :
    Coherent markers events c.shared c.frames := by
  refine h.frameInvariant (P := fun es s frames => Coherent markers es s frames)
    (fun hp hc => hc.perm hp) (initial n markers server) ?_ fun _ hc _ he => hc.outside he
  intro es c₁ f choice others threads e _ _ hc _ he
  obtain ⟨t, hspawned⟩ := Transition.of_fire he
  have hnext : e.next ++ e.spawnedFrames = e.next := by
    rw [spawnedFrames, hspawned, flatMap_nil, append_nil]
  rw [hnext]
  exact hc.step t

end Coherent

/-- When all calls have returned, no record was read before a change whose
invalidation has been processed. -/
theorem record_not_stale {markers : Markers K n} {server : K → Option V} {events : List (Event K)}
    [DecidableEq K] {c : Config (Cache K V n) Unit (Frame K V)}
    (h : Run (cachedMap markers) Always (start n server) events c) (hdone : c.frames = []) :
    ∀ key record, c.shared.store key = some record →
      ∀ change, .processed key change ∈ events → change ≤ record.version := by
  intro key record hr change hev
  rcases (Coherent.run h).stored key record hr change hev with hle | ⟨-, f, hf, -⟩
  · exact hle
  · rw [hdone] at hf
    exact absurd hf not_mem_nil

/-- A reader is overtaken by a change and its invalidation, puts the old value and
removes it again; the next reader caches the new value. -/
def overtakenPicks : List (Pick (Choice ℕ ℕ)) :=
  .outside (.get 3) :: List.replicate 3 (.thread 0 .go) ++
    [.outside (.change 3 (some 5)), .outside (.invalidate 3 1), .thread 1 .go, .thread 1 .go] ++
    List.replicate 5 (.thread 0 .go) ++ .outside (.get 3) :: List.replicate 5 (.thread 2 .go)

def oneSlot : Markers ℕ 1 := ⟨fun key => key, Nat.one_pos⟩

theorem record_not_stale_overtaken :
    ∃ events c, Run (cachedMap oneSlot) Always (start 1 fun _ => (none : Option ℕ)) events c ∧
      c.frames = [] ∧ .processed 3 1 ∈ events ∧
      ∃ record, c.shared.store 3 = some record ∧ 1 ≤ record.version := by
  have hexec : ∃ events c, (cachedMap oneSlot).execAll (fun _ _ => true)
      (start 1 fun _ => (none : Option ℕ)) overtakenPicks = some (events, c) ∧
      c.frames = [] ∧ events = [.tried 3 1, .processed 3 1] ∧
      c.shared.store 3 = some ⟨some 5, 1⟩ := ⟨_, _, rfl, rfl, rfl, rfl⟩
  obtain ⟨events, c, hexec, hdone, hevents, hstore⟩ := hexec
  have hrun := (Run.of_execAll hexec).always
  have hprocessed : .processed 3 1 ∈ events := by simp [hevents]
  exact ⟨events, c, hrun, hdone, hprocessed, _, hstore,
    record_not_stale hrun hdone 3 _ hstore 1 hprocessed⟩

end HazelcastClient.NearCache
