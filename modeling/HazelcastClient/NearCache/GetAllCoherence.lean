import HazelcastClient.NearCache.Coherence
import HazelcastClient.NearCache.GetAllSteps

/-!
# `get_all` and stale records

For the marks a running `get_all` is a number of readers, one for each key that it
has marked (`MapFrame.operations`). With these readers in the place of the call,
the invariant `Coherent` of the near cache without `get_all` holds here as well, as
long as every value that `get_all` puts is still the one of the members.

The keys have bytes. A key object in the marker map has none, so the marker map
never has the key of an entry (`find_eq_none_of_written`), and a node that loses
the bytes of its key is only not found any more.
-/

namespace HazelcastClient.NearCache

open Interleaving Aliasing Serialization List Option MapFrame Cache PointerMap

open Effect (spawnedFrames)

/-! ## More steps that keep the invariant -/

namespace Coherent

variable {K V : Type} {n : ℕ} {markers : Markers K n} {events : List (Event K)}
  {s s' : Cache K V n} {f g : Frame K V} {frames others : List (Frame K V)} {key : K}

theorem of_store (h : Coherent markers events s frames) (hmarks : s'.marks = s.marks)
    (hchanges : s'.changes = s.changes)
    (hstore : ∀ key record, s'.store key = some record → ∀ change,
      .processed key change ∈ events →
        ∃ old, s.store key = some old ∧ old.version = record.version) :
    Coherent markers events s' frames where
  owned := by
    rw [hmarks]
    exact h.owned
  resets := by
    rw [hmarks]
    exact h.resets
  reported := by
    rw [hchanges]
    exact h.reported
  removing := h.removing
  tried := by
    rw [hchanges]
    exact h.tried
  processed := h.processed
  putting := by
    rw [hmarks]
    exact h.putting
  stored := by
    intro key record hr change hev
    obtain ⟨old, hold, hversion⟩ := hstore key record hr change hev
    rw [hmarks, ← hversion]
    exact h.stored key old hold change hev

theorem swap (h : Coherent markers events s (f :: others))
    (howns : ∀ slot, owns markers slot g = owns markers slot f)
    (hresets : ∀ key, Resets key g → s.marks (markers.getSlot key) = .removed)
    (hinvalidate : ∀ key change pc, g ≠ .invalidate key change pc)
    (hput : ∀ key record, g ≠ .get key (.put record)) (hchecks : ∀ key, ¬ Rechecks key f) :
    Coherent markers events s (g :: others) where
  owned := by
    intro slot
    have hsum := h.owned slot
    rw [map_cons, sum_cons] at hsum ⊢
    rw [howns, hsum]
  resets := by
    intro key f' hf' hr
    rcases mem_cons.mp hf' with rfl | hold
    · exact hresets key hr
    · exact h.resets key f' (mem_cons_of_mem f hold) hr
  reported := by
    intro key change pc hf'
    have hold := (mem_cons.mp hf').resolve_left (Ne.symm (hinvalidate key change pc))
    exact h.reported key change pc (mem_cons_of_mem f hold)
  removing := by
    intro key change hf'
    have hold := (mem_cons.mp hf').resolve_left (Ne.symm (hinvalidate key change _))
    exact h.removing key change (mem_cons_of_mem f hold)
  tried := h.tried
  processed := h.processed
  putting := by
    intro key record hf'
    have hold := (mem_cons.mp hf').resolve_left (Ne.symm (hput key record))
    exact h.putting key record (mem_cons_of_mem f hold)
  stored := by
    intro key record hr change hev
    refine (h.stored key record hr change hev).imp_right ?_
    rintro ⟨hm, f', hf', hcheck⟩
    rcases mem_cons.mp hf' with rfl | hold
    · exact absurd hcheck (hchecks key)
    · exact ⟨hm, f', mem_cons_of_mem g hold, hcheck⟩

variable [DecidableEq K]

theorem put_current {record : Record V} (h : Coherent markers events s frames)
    (hversion : s.changes key ≤ record.version) :
    Coherent markers events (s.putRecord key record) frames := by
  refine { h with stored := ?_ }
  intro key' record' hr change hev
  by_cases hkey : key' = key
  · subst hkey
    simp only [putRecord, Function.update_self, Option.some.injEq] at hr
    rw [← hr]
    exact .inl ((h.tried key' change (h.processed key' change hev)).trans hversion)
  · exact h.stored key' record' (by simpa [putRecord, hkey] using hr) change hev

theorem acquire (h : Coherent markers events s frames)
    (hm : s.marks (markers.getSlot key) = .unmarked) :
    Coherent markers events (s.setMark (markers.getSlot key) .marked)
      (.get key (.remoteRead true) :: frames) := by
  have hadd := h.add (f := .get key .tryMark) (by simp [owns, Get.owns]) (by simp [Resets])
    (by simp) (by simp) (by simp)
  have hstep := (hadd.perm perm_append_comm).step (Transition.mark key hm)
  simpa using hstep

theorem release (h : Coherent markers events s (.get key (.remoteRead true) :: others)) :
    Coherent markers events (s.setMark (markers.getSlot key) .unmarked) others := by
  have howns (pc : Get V) (hpc : pc.owns = true) (slot : Fin n) :
      owns markers slot (.get key pc) =
        owns markers slot (.get key (.remoteRead true) : Frame K V) := by
    have hread : (Get.remoteRead true : Get V).owns = true := rfl
    simp [owns, hpc, hread]
  cases hm : s.marks (markers.getSlot key) with
  | unmarked =>
    exact absurd hm (h.ne_unmarked mem_cons_self (by simp [owns, Get.owns]))
  | marked =>
    have hswap := h.swap (howns .tryUnmark rfl) (by simp [Resets]) (by simp) (by simp)
      (by simp [Rechecks])
    simpa using hswap.step (Transition.unmark key hm)
  | removed =>
    have hswap := h.swap (howns .forceUnmark rfl) (by simp [Resets, hm]) (by simp) (by simp)
      (by simp [Rechecks])
    simpa using hswap.step (Transition.forceUnmark key)

end Coherent

/-! ## The objects as a lookup sees them -/

def Frame.key {K V : Type} : Frame K V → K
  | .get key _ => key
  | .invalidate key _ _ => key

section Objects

variable {n : ℕ} {s : ObjectCache n} {key : Data} {choice : Choice Data Data} {object : ℕ}
  {next : List (Frame Data Data)} {ev : Option (Event Data)} {markers : Markers Data n}
  {f : Frame Data Data} {c c' : Cache Data Data n}

theorem toCache_put (s : ObjectCache n) (key : Data) (value : Option Data) (version : ℕ) :
    ({ s with store := s.store.put key value version } : ObjectCache n).toCache =
      s.toCache.putRecord key ⟨value, version⟩ := by
  simp only [ObjectCache.toCache, putRecord, mk.injEq, true_and, and_true]
  funext key'
  by_cases hkey : key' = key
  · subst hkey
    cases value <;> simp [Record.content]
  · simp [hkey, RecordStore.getRecord_put_of_ne]

theorem toCache_removeRecord (s : ObjectCache n) (hbytes : key.bytes ≠ []) :
    ({ s with store := s.store.removeRecord key } : ObjectCache n).toCache =
      s.toCache.removeRecord key := by
  simp only [ObjectCache.toCache, removeRecord, mk.injEq, true_and, and_true]
  funext key'
  by_cases hkey : key' = key
  · subst hkey
    have hnone := (RecordStore.getRecord_removeRecord_self_iff s.store key').mpr
      (s.store.distinct key' hbytes)
    simp [hnone]
  · simp [hkey, RecordStore.getRecord_removeRecord_of_ne]

theorem toCache_storeAfter {e : Effect (Cache Data Data n) Unit (Frame Data Data) (Event Data)}
    (hbytes : f.key.bytes ≠ []) (he : fire markers s.toCache choice f = some e) :
    ({ s with marks := e.shared.marks, store := storeAfter s.store choice f } :
      ObjectCache n).toCache = e.shared := by
  have htry : ({ s with marks := (s.toCache.tryRemove markers f.key).1.marks } :
      ObjectCache n).toCache = (s.toCache.tryRemove markers f.key).1 := by
    simp only [tryRemove, casState]
    split <;> rfl
  revert he
  cases f with
  | get key pc =>
    dsimp only [fire]
    fun_cases fireGet markers s.toCache choice key pc <;> rintro ⟨⟩
    case case4 => exact toCache_removeRecord s hbytes
    case case5 hcas | case10 hcas =>
      simp only [Cache.tryMark, Cache.tryUnmark, Cache.casState] at hcas
      split at hcas <;> cases hcas <;> rfl
    case case9 record hchoice =>
      have hstore : storeAfter s.store choice (.get key (.put record)) =
          s.store.put key record.value record.version := if_neg hchoice
      rw [hstore]
      exact toCache_put s key record.value record.version
    case case11 pc _ _ hpc | case12 pc _ hpc =>
      cases pc <;> cases hpc
      all_goals first | exact htry | exact toCache_removeRecord s hbytes
    all_goals rfl
  | invalidate key change pc =>
    cases pc <;> rintro ⟨⟩
    · exact htry
    · exact toCache_removeRecord s hbytes

theorem version_of_moveFrom {store : RecordStore} {record : Record (Pointer Data)}
    (hbytes : key.bytes ≠ []) (h : (store.moveFrom object).getRecord key = some record) :
    ∃ old, store.getRecord key = some old ∧ old.version = record.version := by
  obtain ⟨old, rfl, hold | ⟨hempty, -⟩⟩ := RecordStore.getRecord_moveFrom h
  · exact ⟨old, hold, rfl⟩
  · exact absurd hempty hbytes

theorem version_of_moveOut {record : Record Data} (hbytes : key.bytes ≠ [])
    (h : (s.moveOut object).toCache.store key = some record) :
    ∃ old, s.toCache.store key = some old ∧ old.version = record.version := by
  obtain ⟨r, hr, rfl⟩ := map_eq_some_iff.mp h
  obtain ⟨r₁, hr₁, hversion₁⟩ := version_of_moveFrom hbytes hr
  obtain ⟨r₂, hr₂, hversion₂⟩ := version_of_moveFrom hbytes hr₁
  exact ⟨r₂.content, map_eq_some_iff.mpr ⟨r₂, hr₂, rfl⟩, hversion₂.trans hversion₁⟩

/-- A step of another operation is its step on the records that a lookup finds. -/
theorem fireOp_spec {e : Effect (ObjectCache n) Unit MapFrame (Event Data)}
    (hbytes : f.key.bytes ≠ []) (he : fireOp markers s choice f = some e) :
    ∃ next, Transition markers s.toCache f next e.event e.shared.toCache ∧
      e.next = next.map .op ∧ e.spawned = [] := by
  obtain ⟨e', he', rfl⟩ := map_eq_some_iff.mp he
  refine ⟨e'.next, ?_, rfl, rfl⟩
  dsimp only
  rw [toCache_storeAfter hbytes he']
  exact (Transition.of_fire he').1

theorem key_of_transition {f g : Frame Data Data} (t : Transition markers c f next ev c')
    (hg : g ∈ next) : g.key = f.key := by
  cases t with
  | plain _ _ hp =>
    cases hp with
    | hit | readOnly => cases hg
    | miss | expired | unmarked | full =>
      cases mem_singleton.mp hg
      rfl
  | unmark | forceUnmark | remove => cases hg
  | expire | mark | read | put | unmarkFailed | ownTryRemove | ownRemove | tryRemove =>
    cases mem_singleton.mp hg
    rfl

theorem key_of_processed {change : ℕ} (t : Transition markers c f next ev c')
    (hev : .processed key change ∈ ev.toList) : key = f.key := by
  cases t with
  | remove key' change' =>
    cases mem_singleton.mp hev
    rfl
  | _ => simp at hev

end Objects

/-! ## A running `get_all` -/

def GetAll.batch : GetAll → Batch
  | .lookup _ b | .expire _ _ b | .tryMark _ _ b | .remoteRead b | .put _ b | .moveOut _ _ _ b
  | .unmark b => b

open GetAll (batch)

def GetAll.keys : GetAll → List Data
  | .lookup keys b => keys ++ b.remainingKeys
  | .expire key keys b | .tryMark key keys b => key :: keys ++ b.remainingKeys
  | .remoteRead b => b.remainingKeys
  | .put entries _ | .moveOut _ _ entries _ => entries.map Fetched.key
  | .unmark _ => []

/-- The keys have bytes, those in the marker map have lost them. -/
structure GetAll.Written (pc : GetAll) : Prop where
  keys : ∀ key ∈ pc.keys, key.bytes ≠ []
  markers : ∀ e ∈ pc.batch.markers, e.1.content.bytes = []
  asked : pc.batch.remainingKeys = [] → pc.batch.markers = []

def heldMarks (m : MarkerMap) : List (Frame Data Data) :=
  (m.filter fun e => e.2).map fun e => .get e.1.content (.remoteRead true)

namespace MapFrame

def operations : MapFrame → List (Frame Data Data)
  | .op f => [f]
  | .getAll pc => heldMarks pc.batch.markers

def Written : MapFrame → Prop
  | .op f => f.key.bytes ≠ []
  | .getAll pc => pc.Written

end MapFrame

section Markers

variable {m : MarkerMap} {key : Data}

section

variable (h : ∀ e ∈ m, e.1.content.bytes = []) (hbytes : key.bytes ≠ [])

include h hbytes

theorem not_mem_of_written :
    key ∉ m.contents := by
  intro hmem
  obtain ⟨e, he, rfl⟩ := mem_map.mp hmem
  exact hbytes (h e he)

theorem find_eq_none_of_written : m.find key = none :=
  find_eq_none_iff.mpr (not_mem_of_written h hbytes)

theorem mark_eq_append (marked : Bool) :
    m.mark key marked = m ++ [(⟨m.length, key.movedFrom⟩, marked)] := by
  have hput : m.put ⟨m.length, key⟩ marked = m ++ [(⟨m.length, key⟩, marked)] :=
    put_of_not_mem (not_mem_of_written h hbytes)
  have hold : m.modifyKeys m.length Data.movedFrom = m :=
    modifyKeys_of_fixed fun e he _ => movedFrom_eq_self (h e he)
  rw [MarkerMap.mark, hput, modifyKeys, map_append]
  change m.modifyKeys m.length Data.movedFrom ++ _ = _
  rw [hold]
  simp [Pointer.modify]

end

theorem heldMarks_append (m : MarkerMap) (p : Pointer Data) (marked : Bool) :
    heldMarks (m ++ [(p, marked)]) =
      heldMarks m ++ if marked then [.get p.content (.remoteRead true)] else [] := by
  cases marked <;> simp [heldMarks]

theorem heldMarks_cons (e : Pointer Data × Bool) (m : MarkerMap) :
    heldMarks (e :: m) =
      (if e.2 then [.get e.1.content (.remoteRead true)] else []) ++ heldMarks m := by
  cases he : e.2 <;> simp [heldMarks, he]

end Markers

/-! ## The invariant -/

variable {n : ℕ} {pos : 0 < n}

structure MapCoherent (pos : 0 < n) (events : List (Event Data)) (s : ObjectCache n)
    (frames : List MapFrame) : Prop where
  coherent : Coherent (keyMarkers pos) events s.toCache (frames.flatMap operations)
  written : ∀ f ∈ frames, f.Written
  processed : ∀ key change, .processed key change ∈ events → key.bytes ≠ []

namespace MapCoherent

variable {events : List (Event Data)} {s s' : ObjectCache n} {frames frames' others : List MapFrame}
  {pc : GetAll} {e : Effect (ObjectCache n) Unit MapFrame (Event Data)} {b : Batch}
  {choice : MapChoice}

theorem perm (h : MapCoherent pos events s frames) (hp : frames.Perm frames') :
    MapCoherent pos events s frames' where
  coherent := h.coherent.perm (hp.flatMap_right _)
  written := fun f hf => h.written f (hp.mem_iff.mpr hf)
  processed := h.processed

section

variable (h : MapCoherent pos events s (.getAll pc :: others))

include h

theorem running :
    Coherent (keyMarkers pos) events s.toCache
      (heldMarks pc.batch.markers ++ others.flatMap operations) :=
  h.coherent

theorem finish (hnone : pc.batch.markers = []) :
    MapCoherent pos events s others where
  coherent := by
    have hcoherent := h.running
    rwa [hnone] at hcoherent
  written := fun g hg => h.written g (mem_cons_of_mem _ hg)
  processed := h.processed

end

/-- A step of `get_all`: what it does to the near cache, and where it goes on. -/
theorem advance {f : MapFrame} (h : MapCoherent pos events s (f :: others)) (pc : GetAll)
    (hcoherent : Coherent (keyMarkers pos) events s'.toCache
      (heldMarks pc.batch.markers ++ others.flatMap operations))
    (hwritten : pc.Written) : MapCoherent pos events s' ([.getAll pc] ++ others) where
  coherent := hcoherent
  written := by
    intro g hg
    rcases mem_cons.mp hg with rfl | hold
    · exact hwritten
    · exact h.written g (mem_cons_of_mem f hold)
  processed := h.processed

theorem op_step {f : Frame Data Data} {choice : Choice Data Data}
    (h : MapCoherent pos events s (.op f :: others))
    (he : fireOp (keyMarkers pos) s choice f = some e) :
    MapCoherent pos (events ++ e.event.toList) e.shared (e.next ++ others) ∧ e.spawned = [] := by
  have hbytes : f.key.bytes ≠ [] := h.written _ mem_cons_self
  obtain ⟨next, ht, hnext, hspawned⟩ := fireOp_spec hbytes he
  refine ⟨⟨?_, ?_, ?_⟩, hspawned⟩
  · have hops : (e.next ++ others).flatMap operations =
        next ++ others.flatMap operations := by
      rw [hnext, flatMap_append, flatMap_map]
      simp [operations]
    rw [hops]
    exact h.coherent.step ht
  · intro g hg
    rcases mem_append.mp hg with hnew | hold
    · rw [hnext] at hnew
      obtain ⟨f', hf', rfl⟩ := mem_map.mp hnew
      change f'.key.bytes ≠ []
      rw [key_of_transition ht hf']
      exact hbytes
    · exact h.written g (mem_cons_of_mem _ hold)
  · intro key change hev
    rcases mem_append.mp hev with hold | hnew
    · exact h.processed key change hold
    · rw [key_of_processed ht hnew]
      exact hbytes

theorem getAll_tryMark {key : Data} {keys : List Data}
    (h : MapCoherent pos events s (.getAll (.tryMark key keys b) :: others)) :
    MapCoherent pos events (s.tryMark (keyMarkers pos) key).1
      ([.getAll (.lookup keys { b with
        markers := b.markers.mark key (s.tryMark (keyMarkers pos) key).2
        remainingKeys := b.remainingKeys ++ [key] })] ++ others) := by
  have hw : (GetAll.tryMark key keys b).Written := h.written _ mem_cons_self
  have hbytes : key.bytes ≠ [] := hw.keys key (by simp [GetAll.keys])
  have hmark := mark_eq_append hw.markers hbytes
  refine h.advance _ ?_ ⟨?_, ?_, ?_⟩
  · have hcoherent := h.running
    simp only [batch] at hmark hcoherent ⊢
    rw [hmark, heldMarks_append]
    by_cases hm : s.marks ((keyMarkers pos).getSlot key) = .unmarked
    · rw [ObjectCache.tryMark_of_unmarked hm, if_pos rfl, append_assoc]
      exact (hcoherent.acquire (show s.toCache.marks
        ((keyMarkers pos).getSlot key.movedFrom) = .unmarked from hm)).perm perm_middle.symm
    · rw [ObjectCache.tryMark_of_ne hm]
      simpa using hcoherent
  · intro key' hkey'
    refine hw.keys key' ?_
    simp only [GetAll.keys, mem_append, mem_cons, not_mem_nil, or_false] at hkey' ⊢
    tauto
  · intro e he
    simp only [batch] at he hmark
    rw [hmark] at he
    rcases mem_append.mp he with hold | hnew
    · exact hw.markers e hold
    · cases mem_singleton.mp hnew
      exact bytes_movedFrom key
  · simp [batch]

theorem getAll_put {entry : Fetched} {entries : List Fetched}
    (h : MapCoherent pos events s (.getAll (.put (entry :: entries) b) :: others))
    (hcurrent : entry.version = s.changes entry.key)
    (he : fireGetAll (keyMarkers pos) s choice (.put (entry :: entries) b) = some e) :
    MapCoherent pos events e.shared (e.next ++ others) ∧ e.spawned = [] ∧ e.event = none := by
  have hw : (GetAll.put (entry :: entries) b).Written := h.written _ mem_cons_self
  have hbytes : entry.key.bytes ≠ [] := hw.keys _ (by simp [GetAll.keys])
  have hkeys : ∀ key ∈ entries.map Fetched.key, key.bytes ≠ [] :=
    fun key hkey => hw.keys key (mem_cons_of_mem _ hkey)
  -- the put is not guarded
  have hfind := find_eq_none_of_written hw.markers hbytes
  have hremove : b.markers.remove entry.key = b.markers :=
    remove_of_not_mem (not_mem_of_written hw.markers hbytes)
  simp only [batch] at hfind
  simp only [fireGetAll, hfind, hremove, getD_none, Bool.false_eq_true, if_false,
    nil_append] at he
  split at he
  · split at he <;> cases he
    exact ⟨h.advance (.put entries _) h.running ⟨hkeys, hw.markers, hw.asked⟩, rfl, rfl⟩
  · cases he
    refine ⟨h.advance (.moveOut _ entry entries b) ?_ ⟨hkeys, hw.markers, hw.asked⟩, rfl, rfl⟩
    have hput : Coherent (keyMarkers pos) events
        (s.toCache.putRecord entry.key ⟨some entry.value, entry.version⟩)
        (heldMarks b.markers ++ others.flatMap operations) :=
      h.running.put_current hcurrent.ge
    rwa [← toCache_put] at hput

/-- One step of `get_all`, if what it puts is the value of the members. -/
theorem getAll_step (h : MapCoherent pos events s (.getAll pc :: others))
    (hcurrent : ∀ entry entries b, pc = .put (entry :: entries) b →
      entry.version = s.changes entry.key) (he : fireGetAll (keyMarkers pos) s choice pc = some e) :
    MapCoherent pos events e.shared (e.next ++ others) ∧ e.spawned = [] ∧ e.event = none := by
  have hw : pc.Written := h.written _ mem_cons_self
  have hfired := he
  revert he
  fun_cases fireGetAll (keyMarkers pos) s choice pc <;> rintro ⟨⟩
  case case12 | case14 => exact h.getAll_put (hcurrent _ _ _ rfl) hfired
  all_goals refine ⟨?_, rfl, rfl⟩
  case case1 b =>
    dsimp only
    split_ifs with hasked
    · exact h.finish (hw.asked (isEmpty_iff.mp hasked))
    · exact h.advance (.remoteRead b) h.running ⟨hw.keys, hw.markers, hw.asked⟩
  case case5 key keys b _ _ _ =>
    refine h.advance (.lookup keys _) h.running ⟨?_, hw.markers, hw.asked⟩
    exact fun key' hkey' => hw.keys key' (mem_cons_of_mem key hkey')
  case case6 key keys b =>
    have hbytes : key.bytes ≠ [] := hw.keys key (by simp [GetAll.keys])
    refine h.advance (.tryMark key keys b) ?_ ⟨hw.keys, hw.markers, hw.asked⟩
    rw [toCache_removeRecord s hbytes]
    exact h.running.remove key
  case case7 hmark =>
    have hmarked := h.getAll_tryMark
    rwa [hmark] at hmarked
  case case8 b entries hperm =>
    refine h.advance (.put entries b) h.running ⟨?_, hw.markers, hw.asked⟩
    intro key hkey
    obtain ⟨entry, hentry, rfl⟩ := mem_map.mp hkey
    obtain ⟨key, hkey', hfetched⟩ := mem_filterMap.mp (hperm.mem_iff.mp hentry)
    obtain ⟨value, -, rfl⟩ := map_eq_some_iff.mp hfetched
    exact hw.keys key hkey'
  case case11 b =>
    exact h.advance (.unmark b) h.running ⟨by simp [GetAll.keys], hw.markers, hw.asked⟩
  case case15 entries _ =>
    refine h.advance (.put entries _) ?_ ⟨hw.keys, hw.markers, hw.asked⟩
    refine h.running.of_store rfl rfl fun key record hr change hev => ?_
    exact version_of_moveOut (h.processed key change hev) hr
  case case16 hnone => exact h.finish hnone
  case case17 hmarks =>
    refine h.advance (.unmark _) ?_ ⟨by simp [GetAll.keys], ?_, ?_⟩
    · have hcoherent := h.running
      simp only [batch, hmarks, heldMarks_cons] at hcoherent ⊢
      split_ifs with hheld
      · rw [if_pos hheld] at hcoherent
        exact hcoherent.release
      · rwa [if_neg hheld, nil_append] at hcoherent
    · intro e he
      exact hw.markers e (by simp only [batch, hmarks]; exact mem_cons_of_mem _ he)
    · intro hasked
      have hnone := hw.asked hasked
      simp only [batch, hmarks] at hnone
      cases hnone
  all_goals exact h.advance _ h.running ⟨hw.keys, hw.markers, hw.asked⟩

theorem add {news : List MapFrame} (h : MapCoherent pos events s frames)
    (hcoherent : Coherent (keyMarkers pos) events s'.toCache
      (frames.flatMap operations ++ news.flatMap operations))
    (hwritten : ∀ f ∈ news, f.Written) : MapCoherent pos events s' (frames ++ news) where
  coherent := by
    rw [flatMap_append]
    exact hcoherent
  written := fun f hf => (mem_append.mp hf).elim (h.written f) (hwritten f)
  processed := h.processed

end MapCoherent

/-- Keys have bytes, and `get_all` puts no value that has changed on the members since
it was read. -/
def undisturbed (c : Config (ObjectCache n) Unit MapFrame) : Move MapFrame MapChoice → Bool
  | .outside (.op (.get key)) => decide (key.bytes ≠ [])
  | .outside (.op (.invalidate key _)) => decide (key.bytes ≠ [])
  | .outside (.op (.evict key)) => decide (key.bytes ≠ [])
  | .outside (.getAll keys) => decide (∀ key ∈ keys, key.bytes ≠ [])
  | .frame (.getAll (.put (entry :: _) _)) _ => decide (entry.version = c.shared.changes entry.key)
  | _ => true

namespace MapCoherent

variable {events : List (Event Data)} {frames : List MapFrame}
  {e : Effect (ObjectCache n) Unit MapFrame (Event Data)} {c : Config (ObjectCache n) Unit MapFrame}

theorem outside_op {choice : Choice Data Data} (h : MapCoherent pos events c.shared frames)
    (hok : undisturbed c (.outside (.op choice)) = true)
    (he : outsideMap c.shared (.op choice) = some e) :
    MapCoherent pos events e.shared (frames ++ e.spawnedFrames) ∧ e.event = none := by
  cases choice with
  | get key =>
    cases he
    have hcoherent := h.coherent.outside (show NearCache.outside _ (.get key) = _ from rfl)
    simp only [toList_none, append_nil] at hcoherent
    have hbytes : key.bytes ≠ [] := of_decide_eq_true hok
    exact ⟨h.add hcoherent (forall_mem_singleton.mpr hbytes), rfl⟩
  | change key value =>
    cases he
    have hcoherent := h.coherent.outside (show NearCache.outside _ (.change key value) = _ from rfl)
    simp only [toList_none, append_nil] at hcoherent
    exact ⟨h.add hcoherent (by simp [spawnedFrames]), rfl⟩
  | invalidate key change =>
    obtain ⟨e', he', rfl⟩ := map_eq_some_iff.mp he
    have hcoherent := h.coherent.outside he'
    obtain ⟨-, ⟨⟩⟩ := ite_none_right_eq_some.mp he'
    simp only [toList_none, append_nil] at hcoherent
    have hbytes : key.bytes ≠ [] := of_decide_eq_true hok
    exact ⟨h.add hcoherent (forall_mem_singleton.mpr hbytes), rfl⟩
  | evict key =>
    cases he
    refine ⟨h.add ?_ (by simp [spawnedFrames]), rfl⟩
    rw [toCache_removeRecord _ (of_decide_eq_true hok)]
    simpa [spawnedFrames] using h.coherent.remove key
  | go | expired | full => cases he

theorem outside {choice : MapChoice} (h : MapCoherent pos events c.shared frames)
    (hok : undisturbed c (.outside choice) = true) (he : outsideMap c.shared choice = some e) :
    MapCoherent pos events e.shared (frames ++ e.spawnedFrames) ∧ e.event = none := by
  cases choice with
  | getAll keys =>
    simp only [outsideMap] at he
    split at he <;> cases he
    have hbytes := of_decide_eq_true hok
    refine ⟨h.add ?_ ?_, rfl⟩
    · simpa [operations, batch, heldMarks, spawnedFrames] using h.coherent
    · intro f hf
      cases mem_singleton.mp hf
      exact ⟨by simpa [GetAll.keys] using hbytes, by simp [GetAll.batch], by simp [GetAll.batch]⟩
  | op choice => exact h.outside_op hok he
  | answer entries => cases he

theorem initial (pos : 0 < n) (format : InMemoryFormat) (server : Data → Option Data) :
    MapCoherent pos [] (startMap n format server).shared (startMap n format server).frames := by
  refine ⟨?_, by simp [startMap, Config.frames], by simp⟩
  exact Coherent.initial n (keyMarkers pos) server

theorem run {format : InMemoryFormat} {server : Data → Option Data}
    (h : Run (objectMap (keyMarkers pos)) (fun c mv => undisturbed c mv = true)
      (startMap n format server) events c) : MapCoherent pos events c.shared c.frames := by
  refine h.frameInvariant (P := fun es s frames => MapCoherent pos es s frames)
    (fun hp hc => hc.perm hp) (initial pos format server) ?_ ?_
  · intro es c₁ f choice others threads e _ _ hc hok he
    cases f with
    | op f =>
      cases choice with
      | op choice =>
        obtain ⟨hstep, hspawned⟩ := hc.op_step he
        rw [spawnedFrames, hspawned, flatMap_nil, append_nil]
        exact hstep
      | getAll keys | answer entries => cases he
    | getAll pc =>
      have hcurrent : ∀ entry entries b, pc = .put (entry :: entries) b →
          entry.version = c₁.shared.changes entry.key := by
        rintro entry entries b rfl
        exact of_decide_eq_true hok
      obtain ⟨hstep, hspawned, hevent⟩ := hc.getAll_step hcurrent he
      rw [spawnedFrames, hspawned, flatMap_nil, append_nil, hevent,
        toList_none, append_nil]
      exact hstep
  · intro es c₁ choice e _ hc hok he
    obtain ⟨hstep, hevent⟩ := hc.outside hok he
    rw [hevent, toList_none, append_nil]
    exact hstep

end MapCoherent

/-- `get_all` has got the mark of the key. The marker map has a node for each of the keys
that are asked for, in their order. -/
def Batch.Marked (b : Batch) (key : Data) : Prop :=
  (key, true) ∈ b.remainingKeys.zip (b.markers.map Prod.snd)

/-- When all calls have returned, no record that a lookup finds was read before a
change whose invalidation has been processed. But when the entry of a key comes back, a
mark of this key is found again exactly if there is none. -/
theorem getAll_record_not_stale {format : InMemoryFormat} {server : Data → Option Data}
    {events : List (Event Data)} {c : Config (ObjectCache n) Unit MapFrame}
    (h : Run (objectMap (keyMarkers pos)) (fun c mv => undisturbed c mv = true)
      (startMap n format server) events c) :
    (c.frames = [] → ∀ key record, c.shared.store.getRecord key = some record →
      ∀ change, .processed key change ∈ events → change ≤ record.version) ∧
    ∀ entry entries b, .getAll (.put (entry :: entries) b) ∈ c.frames →
      ((b.Marked entry.key → b.markers.find entry.key = some true) ↔ ¬ b.Marked entry.key) := by
  refine ⟨fun hdone key record hr change hev => ?_, fun entry entries b hput => ?_⟩
  · have hstored : c.shared.toCache.store key = some record.content :=
      map_eq_some_iff.mpr ⟨record, hr, rfl⟩
    rcases (MapCoherent.run h).coherent.stored key _ hstored change hev with hle | ⟨-, f, hf, -⟩
    · exact hle
    · rw [hdone] at hf
      exact absurd hf not_mem_nil
  · have hw : (GetAll.put (entry :: entries) b).Written := (MapCoherent.run h).written _ hput
    have hfind : b.markers.find entry.key = none :=
      find_eq_none_of_written hw.markers (hw.keys _ mem_cons_self)
    simp [hfind]

/-! ## Schedules -/

def racedKey : Data := ⟨[0, 0, 0, 3, 0, 0, 0, 1, 7], 3⟩

def oldValue : Data := ⟨[0, 0, 0, 0, 0, 0, 0, 1, 4], 4⟩

def newValue : Data := ⟨[0, 0, 0, 0, 0, 0, 0, 1, 5], 5⟩

/-- The absence of the key is cached after the invalidation of its first change. Then
the key gets a value, and `get_all` puts it. -/
def fetchedPicks : List (Pick MapChoice) :=
  [.outside (.op (.change racedKey none)), .outside (.op (.invalidate racedKey 1)),
    .thread 0 (.op .go), .thread 0 (.op .go), .outside (.op (.get racedKey))] ++
    List.replicate 5 (.thread 1 (.op .go)) ++
    [.outside (.op (.change racedKey (some newValue))), .outside (.getAll [racedKey]),
      .thread 2 (.op .go), .thread 2 (.op .go), .thread 2 (.op .go),
      .thread 2 (.answer [⟨racedKey, newValue, 2⟩])] ++
    List.replicate 5 (.thread 2 (.op .go))

theorem getAll_record_not_stale_fetched :
    ∃ events c, Run (objectMap (keyMarkers Nat.one_pos)) (fun c mv => undisturbed c mv = true)
        (startMap 1 .binary fun _ => none) events c ∧ c.frames = [] ∧
      .processed racedKey 1 ∈ events ∧
      ∃ record, c.shared.store.getRecord racedKey = some record ∧ 1 ≤ record.version := by
  have hexec : ∃ events c record, (objectMap (keyMarkers Nat.one_pos)).execAll undisturbed
      (startMap 1 .binary fun _ => none) fetchedPicks = some (events, c) ∧
      c.frames = [] ∧ events = [.tried racedKey 1, .processed racedKey 1] ∧
      c.shared.store.getRecord racedKey = some record := ⟨_, _, _, rfl, rfl, rfl, rfl⟩
  obtain ⟨events, c, record, hexec, hdone, hevents, hrecord⟩ := hexec
  have hrun := Run.of_execAll hexec
  have hprocessed : .processed racedKey 1 ∈ events := by simp [hevents]
  exact ⟨events, c, hrun, hdone, hprocessed, record, hrecord,
    (getAll_record_not_stale hrun).1 hdone racedKey record hrecord 1 hprocessed⟩

/-- A reader holds the mark of the key, so `get_all` does not get it and reads the old
value. The key changes, the invalidation is processed, the reader removes what it
has put, and a second reader caches the new value. Then `get_all` puts the old one. -/
def overtakenGetAllPicks : List (Pick MapChoice) :=
  [.outside (.op (.get racedKey)), .thread 0 (.op .go), .thread 0 (.op .go),
    .outside (.getAll [racedKey]), .thread 1 (.op .go), .thread 1 (.op .go),
    .thread 1 (.op .go), .thread 1 (.answer [⟨racedKey, oldValue, 0⟩]),
    .outside (.op (.change racedKey (some newValue))), .outside (.op (.invalidate racedKey 1)),
    .thread 2 (.op .go), .thread 2 (.op .go)] ++
    List.replicate 6 (.thread 0 (.op .go)) ++
    .outside (.op (.get racedKey)) :: List.replicate 5 (.thread 3 (.op .go)) ++
    List.replicate 5 (.thread 1 (.op .go))

/-- All calls have returned, and the record of the key is older than a change whose
invalidation has been processed. And a key that `get_all` has marked is not found in
its marker map. -/
theorem getAll_record_stale :
    (∃ events c, Run (objectMap (keyMarkers Nat.one_pos)) Always
        (startMap 1 .binary fun _ => some oldValue) events c ∧ c.frames = [] ∧
      .processed racedKey 1 ∈ events ∧
      ∃ record, c.shared.store.getRecord racedKey = some record ∧ record.version < 1) ∧
    find (MarkerMap.mark [] racedKey true) racedKey = none := by
  have hexec : ∃ events c record, (objectMap (keyMarkers Nat.one_pos)).execAll (fun _ _ => true)
      (startMap 1 .binary fun _ => some oldValue) overtakenGetAllPicks = some (events, c) ∧
      c.frames = [] ∧ events = [.tried racedKey 1, .processed racedKey 1] ∧
      c.shared.store.getRecord racedKey = some record ∧ record.version = 0 :=
    ⟨_, _, _, rfl, rfl, rfl, rfl, rfl⟩
  obtain ⟨events, c, record, hexec, hdone, hevents, hrecord, hversion⟩ := hexec
  have hrun := (Run.of_execAll hexec).always
  refine ⟨⟨events, c, hrun, hdone, by simp [hevents], record, hrecord, ?_⟩, rfl⟩
  rw [hversion]
  exact Nat.one_pos

end HazelcastClient.NearCache
