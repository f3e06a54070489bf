import HazelcastClient.NearCache.GetAllSteps

/-!
# What `get_all` leaves in the near cache

The record store after the call is the store before it, with the entries of the
answer put one after another and moved away each (`store_getAllInternal`): the
guarded put finds its mark, as nobody else runs. Moving away costs a new key its
node and every value its bytes. So the call fills the near cache only when there
are no bytes to lose.
-/

namespace HazelcastClient.NearCache

open Aliasing Serialization List Option PointerMap Pointer Data

/-! ## One entry -/

namespace RecordStore

/-- The entry is put, and then its key and value objects are moved away. -/
def putEntry (version : Data → ℕ) (s : RecordStore) (entry : Data × Data) : RecordStore :=
  ((s.put entry.1 (some entry.2) (version entry.1)).moveFrom s.objects).moveFrom (s.objects + 1)

/-- If a lookup finds something, it is a value without bytes. -/
def Emptied (s : RecordStore) (key : Data) : Prop :=
  ∀ record, s.getRecord key = some record →
    ∃ p, record.value = some p ∧ p.content.bytes = []

variable {version : Data → ℕ} {s : RecordStore} {entry : Data × Data} {key : Data}

variable {value : Option Data} {p : Pointer Data} {record : Record (Pointer Data)}

section

variable {v : ℕ} (h : (p, record) ∈ (s.put key value v).records)

include h

theorem key_of_mem_put :
    (∃ record', (p, record') ∈ s.records) ∨ p = ⟨s.objects, key⟩ ∧ s.count key = 0 ∧
      record = ⟨value.map (Pointer.mk (s.objects + 1)), v⟩ := by
  simp only [put, valueToRecord_eq] at h
  rcases mem_put h with hold | ⟨hrecord, ⟨hp, hmem⟩ | hold⟩
  · exact .inl ⟨record, hold⟩
  · exact .inr ⟨hp, count_eq_zero.mpr hmem, hrecord⟩
  · exact .inl hold

theorem value_of_mem_put {q : Pointer Data} (hq : record.value = some q) :
    q.object < s.objects ∨ q.object = s.objects + 1 ∧ value = some q.content := by
  simp only [put, valueToRecord_eq] at h
  rcases mem_put h with hold | ⟨hrecord, -⟩
  · exact .inl ((s.fresh _ hold).2 q hq)
  · simp only at hrecord
    subst hrecord
    obtain ⟨d, hd, rfl⟩ := map_eq_some_iff.mp hq
    exact .inr ⟨rfl, hd⟩

end

variable {object : ℕ}

theorem moveFrom_value (hp : record.value = some p)
    (hbytes : p.object = object ∨ p.content.bytes = []) :
    ∃ q, (record.moveFrom object).value = some q ∧ q.content.bytes = [] := by
  refine ⟨p.modify object movedFrom, by simp [Record.moveFrom, hp], ?_⟩
  rcases p.modify_content object movedFrom with hsame | ⟨-, hmoved⟩
  · rcases hbytes with hobject | hbytes
    · rw [modify_of_eq hobject]
      exact bytes_movedFrom p.content
    · rw [hsame, hbytes]
  · rw [hmoved, bytes_movedFrom]

/-- What a lookup finds after the entry has been moved away is what it has found
before, or it is the value of the entry. -/
theorem getRecord_putEntry (h : (s.putEntry version entry).getRecord key = some record) :
    ∃ old, record = (old.moveFrom s.objects).moveFrom (s.objects + 1) ∧
      (s.getRecord key = some old ∧ key ≠ entry.1 ∨
        old.value = some ⟨s.objects + 1, entry.2⟩) := by
  obtain ⟨moved, rfl, hmoved⟩ := getRecord_moveFrom h
  rcases hmoved with hmoved | ⟨-, p, hp, hobject⟩
  · obtain ⟨old, rfl, hold⟩ := getRecord_moveFrom hmoved
    refine ⟨old, rfl, ?_⟩
    rcases hold with hold | ⟨-, p, hp, hobject⟩
    · by_cases hkey : key = entry.1
      · rw [hkey, getRecord_put_self] at hold
        cases hold
        exact .inr rfl
      · rw [getRecord_put_of_ne s _ _ hkey] at hold
        exact .inl ⟨hold, hkey⟩
    · rcases key_of_mem_put hp with ⟨record', hold⟩ | ⟨-, -, rfl⟩
      · exact absurd hobject (Nat.ne_of_lt (s.fresh _ hold).1)
      · exact .inr rfl
  · -- no key object has the number of the value
    simp only [moveFrom] at hp
    obtain ⟨e, he, heq⟩ := mem_mapValues.mp hp
    obtain ⟨e', he', rfl⟩ := mem_modifyKeys.mp he
    have hsame : e'.1.object = s.objects + 1 := by
      rw [← hobject, ← congrArg (fun x => x.1.object) heq]
      simp
    rcases key_of_mem_put he' with ⟨record', hold⟩ | ⟨hnew, -⟩
    · exact absurd hsame (Nat.ne_of_lt ((s.fresh _ hold).1.trans (Nat.lt_succ_self _)))
    · rw [hnew] at hsame
      exact absurd hsame (by simp)

theorem emptied_putEntry (h : key ≠ entry.1 → s.Emptied key) :
    (s.putEntry version entry).Emptied key := by
  intro record hrecord
  obtain ⟨old, rfl, ⟨hold, hne⟩ | hvalue⟩ := getRecord_putEntry hrecord
  · obtain ⟨p, hp, hbytes⟩ := h hne old hold
    obtain ⟨q, hq, hq'⟩ := moveFrom_value hp (.inr hbytes)
    exact moveFrom_value hq (.inr hq')
  · have hkept : (old.moveFrom s.objects).value = some ⟨s.objects + 1, entry.2⟩ := by
      simp [Record.moveFrom, hvalue, Pointer.modify]
    exact moveFrom_value hkept (.inl rfl)

theorem key_of_mem_moveFrom (h : (p, record) ∈ (s.moveFrom object).records)
    (hbytes : p.content.bytes ≠ []) :
    p.object ≠ object ∧ ∃ record', (p, record') ∈ s.records := by
  simp only [moveFrom] at h
  obtain ⟨e, he, heq⟩ := mem_mapValues.mp h
  obtain ⟨e', he', rfl⟩ := mem_modifyKeys.mp he
  obtain ⟨rfl, -⟩ := Prod.mk.inj heq
  by_cases hobject : e'.1.object = object
  · rw [modify_of_eq hobject] at hbytes
    exact absurd (bytes_movedFrom e'.1.content) hbytes
  · rw [modify_of_ne hobject]
    exact ⟨hobject, e'.2, he'⟩

/-- A new key with bytes is not found: its node has lost them. -/
theorem count_putEntry_eq_zero (hbytes : key.bytes ≠ []) (h : s.count key = 0) :
    (s.putEntry version entry).count key = 0 := by
  rw [count, count_eq_zero] at h ⊢
  intro hmem
  obtain ⟨⟨p, record⟩, hnode, rfl⟩ := mem_map.mp hmem
  obtain ⟨-, record₁, hnode₁⟩ := key_of_mem_moveFrom hnode hbytes
  obtain ⟨hobject, record₂, hnode₂⟩ := key_of_mem_moveFrom hnode₁ hbytes
  rcases key_of_mem_put hnode₂ with ⟨record', hold⟩ | ⟨rfl, -⟩
  · exact h (mem_map.mpr ⟨_, hold, rfl⟩)
  · exact hobject rfl

theorem count_put (s : RecordStore) (key key' : Data) (value : Option Data) (v : ℕ) :
    (s.put key value v).count key' =
      s.count key' + if key = key' ∧ s.count key = 0 then 1 else 0 := by
  simp only [count, put, contents_put, count_eq_zero]
  by_cases hmem : key ∈ s.records.contents
  · simp [hmem]
  · by_cases hkey : key = key'
    · subst hkey
      simp [hmem, count_append]
    · simp [hmem, hkey, count_append]

/-- A key without bytes does not lose nodes. -/
theorem count_le_count_putEntry (hbytes : key.bytes = []) :
    s.count key ≤ (s.putEntry version entry).count key := by
  have hmove (s : RecordStore) (object : ℕ) : s.count key ≤ (s.moveFrom object).count key := by
    simp only [count, moveFrom, contents_mapValues]
    exact le_count_modifyKeys s.records (movedFrom_eq_self hbytes)
  calc s.count key ≤ (s.put entry.1 (some entry.2) (version entry.1)).count key := by
        rw [count_put]
        exact Nat.le_add_right _ _
    _ ≤ ((s.put entry.1 (some entry.2) (version entry.1)).moveFrom s.objects).count key :=
        hmove _ _
    _ ≤ _ := hmove _ _

/-! ## Entries without bytes to lose -/

/-- The value has no bytes, and neither has the key, or its node is there already. -/
def Harmless (s : RecordStore) (entry : Data × Data) : Prop :=
  entry.2.bytes = [] ∧ (entry.1.bytes = [] ∨ s.count entry.1 ≠ 0)

theorem moveFrom_of_fixed (s : RecordStore) (object : ℕ)
    (hkeys : ∀ p record, (p, record) ∈ s.records → p.object = object → p.content.bytes = [])
    (hvalues : ∀ p record q, (p, record) ∈ s.records → record.value = some q →
      q.object = object → q.content.bytes = []) :
    (s.moveFrom object).records = s.records := by
  have hkeys' : s.records.modifyKeys object movedFrom = s.records :=
    modifyKeys_of_fixed fun e he hobject =>
      movedFrom_eq_self (hkeys e.1 e.2 he hobject)
  simp only [moveFrom, hkeys']
  refine mapValues_of_fixed ?_
  rintro ⟨p, record⟩ he
  obtain ⟨value, v⟩ := record
  cases value with
  | none => rfl
  | some q =>
    have hq : q.modify object movedFrom = q := by
      by_cases hobject : q.object = object
      · rw [modify_of_eq hobject,
          movedFrom_eq_self (hvalues p _ q he rfl hobject)]
      · exact modify_of_ne hobject
    simp [Record.moveFrom, hq]

theorem records_putEntry (h : s.Harmless entry) :
    (s.putEntry version entry).records =
      (s.put entry.1 (some entry.2) (version entry.1)).records := by
  obtain ⟨hvalue, hkey⟩ := h
  have hfirst : ((s.put entry.1 (some entry.2) (version entry.1)).moveFrom s.objects).records =
      (s.put entry.1 (some entry.2) (version entry.1)).records := by
    refine moveFrom_of_fixed _ _ ?_ ?_
    · intro p record hnode hobject
      rcases key_of_mem_put hnode with ⟨record', hold⟩ | ⟨rfl, hnone, -⟩
      · exact absurd hobject (Nat.ne_of_lt (s.fresh _ hold).1)
      · exact hkey.resolve_right (absurd hnone)
    · intro p record q hnode hq hobject
      rcases value_of_mem_put hnode hq with hlt | ⟨hnew, -⟩
      · omega
      · omega
  have hsecond := moveFrom_of_fixed
    ((s.put entry.1 (some entry.2) (version entry.1)).moveFrom s.objects) (s.objects + 1)
  rw [hfirst] at hsecond
  refine hsecond ?_ ?_
  · intro p record hnode hobject
    rcases key_of_mem_put hnode with ⟨record', hold⟩ | ⟨rfl, -⟩
    · exact absurd hobject (Nat.ne_of_lt ((s.fresh _ hold).1.trans (Nat.lt_succ_self _)))
    · exact absurd hobject (by simp)
  · intro p record q hnode hq hobject
    rcases value_of_mem_put hnode hq with hlt | ⟨-, hcontent⟩
    · omega
    · rw [← Option.some.inj hcontent, hvalue]

theorem count_putEntry (h : s.Harmless entry) (key : Data) :
    (s.putEntry version entry).count key =
      s.count key + if entry.1 = key ∧ s.count entry.1 = 0 then 1 else 0 := by
  rw [← count_put s entry.1 key (some entry.2) (version entry.1), count, records_putEntry h, count]

theorem size_putEntry (h : s.Harmless entry) : (s.putEntry version entry).size =
    s.size + if s.count entry.1 = 0 then 1 else 0 := by
  rw [size, records_putEntry h, put, length_put, size]
  by_cases hmem : entry.1 ∈ s.records.contents
  · have hcount : s.count entry.1 ≠ 0 := fun hzero => count_eq_zero.mp hzero hmem
    simp [hmem, hcount]
  · have hcount : s.count entry.1 = 0 := count_eq_zero.mpr hmem
    simp [hmem, hcount]

/-! ## All entries of the answer -/

def newKeys (s : RecordStore) (entries : List (Data × Data)) : Finset Data :=
  (entries.map Prod.fst).toFinset.filter fun key => s.count key = 0

section Entries

variable {entries : List (Data × Data)}

theorem emptied_putEntries (h : key ∈ entries.map Prod.fst ∨ s.Emptied key) :
    (entries.foldl (putEntry version) s).Emptied key := by
  induction entries generalizing s with
  | nil => exact h.resolve_left (by simp)
  | cons e entries ih =>
    rw [foldl_cons]
    refine ih ?_
    by_cases hlater : key ∈ entries.map Prod.fst
    · exact .inl hlater
    · refine .inr (emptied_putEntry fun hne => h.resolve_left ?_)
      simpa [hne] using hlater

theorem count_putEntries_eq_zero (version : Data → ℕ) (entries : List (Data × Data))
    (hbytes : key.bytes ≠ []) (h : s.count key = 0) :
    (entries.foldl (putEntry version) s).count key = 0 := by
  induction entries generalizing s with
  | nil => exact h
  | cons e entries ih => exact ih (count_putEntry_eq_zero hbytes h)

theorem count_le_count_putEntries (hbytes : key.bytes = []) :
    s.count key ≤ (entries.foldl (putEntry version) s).count key := by
  induction entries generalizing s with
  | nil => exact le_rfl
  | cons e entries ih => exact (count_le_count_putEntry hbytes).trans ih

theorem Harmless.putEntry {e : Data × Data} (he : s.Harmless e) (h : s.Harmless entry) :
    (s.putEntry version e).Harmless entry := by
  refine ⟨h.1, h.2.imp_right fun hcount => ?_⟩
  rw [count_putEntry he]
  omega

theorem mem_newKeys : key ∈ s.newKeys entries ↔ key ∈ entries.map Prod.fst ∧ s.count key = 0 := by
  simp [newKeys]

theorem not_mem_newKeys_putEntry (version : Data → ℕ) (entries : List (Data × Data))
    (h : s.Harmless entry) :
    entry.1 ∉ (s.putEntry version entry).newKeys entries := by
  rw [mem_newKeys, count_putEntry h]
  by_cases hcount : s.count entry.1 = 0
  · simp [hcount]
  · simp [hcount]

theorem newKeys_cons (version : Data → ℕ) (entries : List (Data × Data)) (h : s.Harmless entry) :
    s.newKeys (entry :: entries) = if s.count entry.1 = 0
      then insert entry.1 ((s.putEntry version entry).newKeys entries)
      else (s.putEntry version entry).newKeys entries := by
  have hcount (key : Data) (hne : entry.1 ≠ key) :
      (s.putEntry version entry).count key = s.count key := by
    rw [count_putEntry h, if_neg fun hand => hne hand.1, Nat.add_zero]
  have hself := not_mem_newKeys_putEntry version entries h
  ext key
  by_cases hkey : entry.1 = key
  · subst hkey
    by_cases hnew : s.count entry.1 = 0
    · simp [mem_newKeys, hnew]
    · simp [hself, mem_newKeys, hnew]
  · have hiff : key ∈ s.newKeys (entry :: entries) ↔
        key ∈ (s.putEntry version entry).newKeys entries := by
      rw [mem_newKeys, mem_newKeys, hcount key hkey, map_cons, mem_cons,
        or_iff_right (Ne.symm hkey)]
    rw [hiff]
    split_ifs
    · rw [Finset.mem_insert, or_iff_right (Ne.symm hkey)]
    · exact Iff.rfl

theorem count_putEntries (version : Data → ℕ) (h : ∀ e ∈ entries, s.Harmless e) (key : Data) :
    (entries.foldl (putEntry version) s).count key =
      s.count key + if key ∈ s.newKeys entries then 1 else 0 := by
  induction entries generalizing s with
  | nil => simp [newKeys]
  | cons e entries ih =>
    have he : s.Harmless e := h e mem_cons_self
    rw [foldl_cons, ih fun e' he' => he.putEntry (h e' (mem_cons_of_mem e he')),
      count_putEntry he, newKeys_cons version entries he]
    by_cases hnew : s.count e.1 = 0
    · by_cases hkey : e.1 = key
      · subst hkey
        simp [hnew, not_mem_newKeys_putEntry version entries he]
      · simp [hnew, hkey, Ne.symm hkey]
    · simp [hnew]

theorem size_putEntries (h : ∀ e ∈ entries, s.Harmless e) :
    (entries.foldl (putEntry version) s).size = s.size + (s.newKeys entries).card := by
  induction entries generalizing s with
  | nil => simp [newKeys]
  | cons e entries ih =>
    have he : s.Harmless e := h e mem_cons_self
    rw [foldl_cons, ih fun e' he' => he.putEntry (h e' (mem_cons_of_mem e he')),
      size_putEntry he, newKeys_cons version entries he]
    split_ifs
    · rw [Finset.card_insert_of_notMem (not_mem_newKeys_putEntry version entries he)]
      omega
    · omega

end Entries

end RecordStore

open RecordStore (getRecord_eq_none_iff mem_newKeys putEntry)

/-! ## Marks of the call -/

section Marks

variable {n : ℕ} (pos : 0 < n) (slot : Fin n) (m : MarkerMap)

def held (slot : Fin n) (m : MarkerMap) : ℕ :=
  m.countP fun e => e.2 && decide ((keyMarkers pos).getSlot e.1.content = slot)

theorem held_cons (e : Pointer Data × Bool) (m : MarkerMap) :
    held pos slot (e :: m) = held pos slot m +
      if e.2 = true ∧ (keyMarkers pos).getSlot e.1.content = slot then 1 else 0 := by
  simp [held, countP_cons]

theorem held_put_le (p : Pointer Data) (marked : Bool) :
    held pos slot (m.put p marked) ≤ held pos slot m +
      if marked = true ∧ (keyMarkers pos).getSlot p.content = slot then 1 else 0 := by
  induction m with
  | nil => simp [put, held]
  | cons e m ih =>
    rw [put_cons]
    by_cases hkey : e.1.content = p.content
    · rw [if_pos hkey, held_cons, held_cons, hkey]
      exact Nat.add_le_add_right (Nat.le_add_right _ _) _
    · rw [if_neg hkey, held_cons, held_cons, Nat.add_right_comm]
      exact Nat.add_le_add_right ih _

theorem held_modifyKeys (object : ℕ) :
    held pos slot (m.modifyKeys object movedFrom) = held pos slot m := by
  induction m with
  | nil => rfl
  | cons e m ih =>
    have hslot : (keyMarkers pos).getSlot (e.1.modify object movedFrom).content =
        (keyMarkers pos).getSlot e.1.content := by
      rcases e.1.modify_content object movedFrom with hsame | ⟨-, hmoved⟩
      · rw [hsame]
      · rw [hmoved, getSlot_movedFrom]
    rw [modifyKeys_cons, held_cons, held_cons, ih]
    simp only [hslot]

theorem held_remove (key : Data) :
    held pos slot (m.remove key) +
      (if m.find key = some true ∧ (keyMarkers pos).getSlot key = slot then 1 else 0) =
        held pos slot m := by
  induction m with
  | nil => simp [remove, find, held]
  | cons e m ih =>
    rw [remove_cons, find_cons, held_cons]
    by_cases hkey : e.1.content = key
    · subst hkey
      simp
    · simp only [if_neg hkey, held_cons]
      omega

/-- The marks that the call holds are there, each of them once. -/
def Guarded (s : ObjectCache n) (m : MarkerMap) : Prop :=
  ∀ slot, held pos slot m ≤ if s.marks slot = .marked then 1 else 0

variable {pos} {s : ObjectCache n} {b : Batch}

theorem guarded_nil (pos : 0 < n) (s : ObjectCache n) : Guarded pos s [] :=
  fun _ => Nat.zero_le _

theorem guarded_tryMark (h : Guarded pos s b.markers) (key : Data) :
    Guarded pos (s.tryMark (keyMarkers pos) key).1
      (b.markers.mark key (s.tryMark (keyMarkers pos) key).2) := by
  intro slot
  have hle := held_put_le pos slot b.markers ⟨b.markers.length, key⟩
    (s.tryMark (keyMarkers pos) key).2
  have hold := h slot
  rw [MarkerMap.mark, held_modifyKeys]
  refine hle.trans ?_
  by_cases hm : s.marks ((keyMarkers pos).getSlot key) = .unmarked
  · rw [ObjectCache.tryMark_of_unmarked hm]
    by_cases hslot : (keyMarkers pos).getSlot key = slot
    · subst hslot
      simp only [hm, reduceCtorEq, if_false] at hold
      simpa using hold
    · simpa [hslot, Ne.symm hslot] using hold
  · rw [ObjectCache.tryMark_of_ne hm]
    simpa using hold

/-- A mark that is found in the marker map can be given back. -/
theorem resetToUnmarkedState_of_held (h : s.marks ((keyMarkers pos).getSlot key) = .marked) :
    s.resetToUnmarkedState (keyMarkers pos) key =
      { s with marks := Function.update s.marks ((keyMarkers pos).getSlot key) .unmarked } := by
  simp [ObjectCache.resetToUnmarkedState, Cache.tryUnmark, Cache.casState, ObjectCache.toCache,
    Cache.setMark, h]

end Marks

/-! ## The whole call -/

section Call

variable {n : ℕ} {pos : 0 < n} (invalidateOnChange : Bool) (s : ObjectCache n)

theorem lookUpKeys (b : Batch) (keys : List Data) (h : Guarded pos s b.markers) :
    ∃ s' b', keys.foldl (lookUpKey (keyMarkers pos) invalidateOnChange) (s, b) = (s', b') ∧
      s'.store = s.store ∧ s'.changes = s.changes ∧ Guarded pos s' b'.markers ∧
      b'.remainingKeys =
        b.remainingKeys ++ keys.filter fun key => (cachedValue s.store key).isNone := by
  induction keys generalizing s b with
  | nil => exact ⟨s, b, rfl, rfl, rfl, h, (append_nil _).symm⟩
  | cons key keys ih =>
    rw [foldl_cons]
    cases hvalue : cachedValue s.store key with
    | some value =>
      simp only [lookUpKey, hvalue]
      simpa [hvalue] using ih s { b with result := b.result ++ [(key, value)] } h
    | none =>
      cases invalidateOnChange with
      | false =>
        simp only [lookUpKey, hvalue]
        simpa [hvalue] using ih s { b with remainingKeys := b.remainingKeys ++ [key] } h
      | true =>
        simp only [lookUpKey, hvalue]
        have hrest := ih (s.tryMark (keyMarkers pos) key).1
          { b with
            markers := b.markers.mark key (s.tryMark (keyMarkers pos) key).2
            remainingKeys := b.remainingKeys ++ [key] } (guarded_tryMark h key)
        simpa [hvalue] using hrest

theorem storeEntry_of_guarded {s : ObjectCache n} {b : Batch} (entry : Data × Data)
    (h : Guarded pos s b.markers) :
    ∃ s' b', storeEntry (keyMarkers pos) (s, b) entry = (s', b') ∧
      s'.store = s.store.putEntry s.changes entry ∧ s'.changes = s.changes ∧
      Guarded pos s' b'.markers := by
  obtain ⟨key, value⟩ := entry
  have hremove (slot : Fin n) := held_remove pos slot b.markers key
  by_cases hfound : b.markers.find key = some true
  · -- the slot is held, so it is marked and the mark is given back
    have hmarked : s.marks ((keyMarkers pos).getSlot key) = .marked := by
      by_contra hne
      have hle := h ((keyMarkers pos).getSlot key)
      have hone := hremove ((keyMarkers pos).getSlot key)
      rw [if_neg hne] at hle
      rw [if_pos ⟨hfound, rfl⟩] at hone
      omega
    have hreset : (s.put key value (s.changes key)).resetToUnmarkedState (keyMarkers pos) key =
        { s.put key value (s.changes key) with
          marks := Function.update s.marks ((keyMarkers pos).getSlot key) .unmarked } :=
      resetToUnmarkedState_of_held hmarked
    simp only [storeEntry, hfound, getD_some, if_true, hreset]
    refine ⟨_, _, rfl, rfl, rfl, ?_⟩
    intro slot
    have hle := h slot
    have hone := hremove slot
    simp only [ObjectCache.moveOut]
    by_cases hslot : (keyMarkers pos).getSlot key = slot
    · subst hslot
      simp [hfound, hmarked] at hle hone ⊢
      omega
    · simp [hslot, Ne.symm hslot] at hle hone ⊢
      omega
  · have hfalse : (b.markers.find key).getD false = false := by
      cases hb : b.markers.find key with
      | none => rfl
      | some marked =>
        cases marked with
        | false => rfl
        | true => exact absurd hb hfound
    simp only [storeEntry, hfalse, Bool.false_eq_true, if_false]
    refine ⟨_, _, rfl, rfl, rfl, ?_⟩
    intro slot
    have hle := h slot
    have hone := hremove slot
    simp only [hfound, false_and, if_false, Nat.add_zero] at hone
    rw [hone]
    exact hle

theorem storeEntries (b : Batch) (entries : List (Data × Data)) (h : Guarded pos s b.markers) :
    ∃ s' b', entries.foldl (storeEntry (keyMarkers pos)) (s, b) = (s', b') ∧
      s'.store = entries.foldl (putEntry s.changes) s.store := by
  induction entries generalizing s b with
  | nil => exact ⟨s, b, rfl, rfl⟩
  | cons entry entries ih =>
    obtain ⟨s₁, b₁, heq, hstore, hchanges, hguard⟩ := storeEntry_of_guarded entry h
    rw [foldl_cons, foldl_cons, heq, ← hstore, ← hchanges]
    exact ih s₁ b₁ hguard

theorem store_unmarkRemainingMarkedKeys (markers : Markers Data n) (s : ObjectCache n)
    (m : MarkerMap) : (unmarkRemainingMarkedKeys markers s m).store = s.store := by
  unfold unmarkRemainingMarkedKeys
  induction m generalizing s with
  | nil => rfl
  | cons e m ih =>
    rw [foldl_cons, ih]
    split_ifs <;> rfl

def fetched (store : RecordStore) (keys : List Data) (remote : List Data → List (Data × Data)) :
    List (Data × Data) :=
  let remainingKeys := keys.filter fun key => (cachedValue store key).isNone
  if remainingKeys.isEmpty then [] else remote remainingKeys

theorem store_getAllInternal (keys : List Data) (remote : List Data → List (Data × Data)) :
    (getAllInternal (keyMarkers pos) invalidateOnChange s keys remote).1.store =
      (fetched s.store keys remote).foldl (putEntry s.changes) s.store := by
  obtain ⟨s₁, b₁, hlook, hstore, hchanges, hguard, hremaining⟩ :=
    lookUpKeys invalidateOnChange s {} keys (guarded_nil pos s)
  rw [nil_append] at hremaining
  simp only [getAllInternal, hlook, fetched, ← hremaining]
  split_ifs with hempty
  · exact hstore
  · obtain ⟨s₂, b₂, hentries, hstore₂⟩ := storeEntries s₁ b₁ (remote b₁.remainingKeys) hguard
    rw [hentries, store_unmarkRemainingMarkedKeys, hstore₂, hstore, hchanges]

/-- The near cache has what the call has fetched: the values, a record for each key
that had none, and an invalidation removes them. -/
def Fills (markers : Markers Data n) (invalidateOnChange : Bool) (s : ObjectCache n)
    (keys : List Data) (remote : List Data → List (Data × Data)) : Prop :=
  let s' := (getAllInternal markers invalidateOnChange s keys remote).1
  let entries := fetched s.store keys remote
  (∀ e ∈ entries, ∃ value, s'.store.get e.1 = some (some value) ∧ value.bytes = e.2.bytes) ∧
    s'.store.size = s.store.size + (s.store.newKeys entries).card ∧
    ∀ e ∈ entries, (s'.invalidate markers e.1).store.get e.1 = none

variable {store : RecordStore} {key : Data}

theorem get_eq_none_iff : store.get key = none ↔ store.getRecord key = none := by
  simp [RecordStore.get]

/-- A value that is found in a store that has been emptied has no bytes. -/
theorem bytes_of_emptied {key value : Data} (h : store.Emptied key)
    (hget : store.get key = some (some value)) : value.bytes = [] := by
  obtain ⟨record, hrecord, hvalue⟩ := map_eq_some_iff.mp hget
  obtain ⟨p, hp, hbytes⟩ := h record hrecord
  have hcontent : p.content = value := by simpa [Record.content, hp] using hvalue
  rw [← hcontent, hbytes]

theorem get_of_emptied (h : store.Emptied key) (hcount : store.count key ≠ 0) :
    ∃ value, store.get key = some (some value) ∧ value.bytes = [] := by
  cases hrecord : store.getRecord key with
  | none => exact absurd (getRecord_eq_none_iff.mp hrecord) hcount
  | some record =>
    obtain ⟨p, hp, hbytes⟩ := h record hrecord
    exact ⟨p.content, by simp [RecordStore.get, hrecord, Record.content, hp], hbytes⟩

/-- `get_all` fills the near cache exactly if no value has bytes, every key without
a record has none either, and no key has two nodes. -/
theorem getAllInternal_fills_iff (pos : 0 < n) (invalidateOnChange : Bool) (s : ObjectCache n)
    (keys : List Data) (remote : List Data → List (Data × Data)) :
    Fills (keyMarkers pos) invalidateOnChange s keys remote ↔
      ∀ e ∈ fetched s.store keys remote, e.2.bytes = [] ∧
        (e.1.bytes = [] ∨ s.store.count e.1 ≠ 0) ∧ s.store.count e.1 ≤ 1 := by
  simp only [Fills, ObjectCache.invalidate, store_getAllInternal]
  generalize hentries : fetched s.store keys remote = entries
  have hempty (e : Data × Data) (he : e ∈ entries) :
      (entries.foldl (putEntry s.changes) s.store).Emptied e.1 :=
    RecordStore.emptied_putEntries (.inl (mem_map_of_mem he))
  constructor
  · rintro ⟨hget, -, hremoved⟩ e he
    obtain ⟨value, hvalue, hbytes⟩ := hget e he
    refine ⟨hbytes.symm.trans (bytes_of_emptied (hempty e he) hvalue), ?_, ?_⟩
    · by_contra hlost
      rw [not_or, not_not] at hlost
      have hzero := RecordStore.count_putEntries_eq_zero s.changes entries hlost.1 hlost.2
      rw [get_eq_none_iff.mpr (getRecord_eq_none_iff.mpr hzero)] at hvalue
      cases hvalue
    · by_cases hkey : e.1.bytes = []
      · have hone := (RecordStore.getRecord_removeRecord_self_iff _ e.1).mp
          (get_eq_none_iff.mp (hremoved e he))
        exact (RecordStore.count_le_count_putEntries hkey).trans hone
      · exact s.store.distinct e.1 hkey
  · intro h
    have hharmless : ∀ e ∈ entries, s.store.Harmless e := fun e he => ⟨(h e he).1, (h e he).2.1⟩
    have hcount := RecordStore.count_putEntries s.changes hharmless
    refine ⟨?_, RecordStore.size_putEntries hharmless, ?_⟩
    · intro e he
      have hfound : (entries.foldl (putEntry s.changes) s.store).count e.1 ≠ 0 := by
        rw [hcount]
        by_cases hnew : s.store.count e.1 = 0
        · have hmem : e.1 ∈ s.store.newKeys entries :=
            mem_newKeys.mpr ⟨mem_map_of_mem he, hnew⟩
          simp [hmem]
        · omega
      obtain ⟨value, hvalue, hbytes⟩ := get_of_emptied (hempty e he) hfound
      exact ⟨value, hvalue, hbytes.trans (h e he).1.symm⟩
    · intro e he
      rw [get_eq_none_iff, RecordStore.getRecord_removeRecord_self_iff, hcount]
      have hle := (h e he).2.2
      split_ifs with hnew
      · rw [(mem_newKeys.mp hnew).2]
      · exact hle

def noRecords : ObjectCache 1 where
  store := ⟨.binary, [], 0, fun _ _ => Nat.zero_le 1, fun _ h => nomatch h⟩
  server := fun _ => none

def oneKey : Data := ⟨[0, 0, 0, 5, 0, 0, 0, 1, 7], 5⟩

def oneValue : Data := ⟨[0, 0, 0, 0, 0, 0, 0, 1, 9], 1⟩

/-- One key is fetched into a near cache without records. The store has a node more,
but neither a lookup nor an invalidation finds it. -/
theorem getAllInternal_loses_key :
    (getAllInternal (keyMarkers Nat.one_pos) true noRecords [oneKey]
        fun _ => [(oneKey, oneValue)]).1.store.get oneKey = none ∧
      ((getAllInternal (keyMarkers Nat.one_pos) true noRecords [oneKey]
        fun _ => [(oneKey, oneValue)]).1.invalidate (keyMarkers Nat.one_pos) oneKey).store.size =
          1 ∧
      ¬ Fills (keyMarkers Nat.one_pos) true noRecords [oneKey]
        fun _ => [(oneKey, oneValue)] := by
  refine ⟨rfl, rfl, ?_⟩
  rintro ⟨hget, -⟩
  obtain ⟨value, hvalue, -⟩ := hget (oneKey, oneValue) (by decide)
  cases hvalue

def absentCached : ObjectCache 1 :=
  { store := noRecords.store.put oneKey none 0, server := fun _ => none }

theorem getAllInternal_fills_absent :
    Fills (keyMarkers Nat.one_pos) true absentCached [oneKey] fun _ => [(oneKey, ⟨[], 0⟩)] :=
  (getAllInternal_fills_iff Nat.one_pos true absentCached [oneKey] _).mpr (by decide)

end Call

end HazelcastClient.NearCache
