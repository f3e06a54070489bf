import HazelcastClient.Aliasing.PointerMap
import HazelcastClient.NearCache.Operations
import HazelcastClient.Serialization.Data

/-!
# The record store of a near cache

The store keeps shared pointers to the key and to the value it is given, in either
in-memory format. Whoever holds one of the objects can still move it away, and
then the store has a key or a value without bytes. `objects` numbers the objects
of the store; what is put gets new ones.

A lookup compares hash and bytes. Keys with bytes are all different; keys that
have been moved from need not be.
-/

namespace HazelcastClient.NearCache

open Aliasing Serialization List Option PointerMap

inductive InMemoryFormat where
  | binary
  | object
  deriving DecidableEq

/-- `value_to_record` of `NearCacheDataRecordStore` and of `NearCacheObjectRecordStore`:
the record has the pointer, not a copy. -/
def valueToRecord (value : Option (Pointer Data)) (version : ℕ) :
    InMemoryFormat → Record (Pointer Data)
  | .binary => ⟨value, version⟩
  | .object => ⟨value, version⟩

@[simp] theorem valueToRecord_eq (value : Option (Pointer Data)) (version : ℕ)
    (format : InMemoryFormat) : valueToRecord value version format = ⟨value, version⟩ := by
  cases format <;> rfl

/-- The record after `std::move` of an object. -/
def Record.moveFrom (object : ℕ) (record : Record (Pointer Data)) : Record (Pointer Data) :=
  { record with value := record.value.map (Pointer.modify object Data.movedFrom) }

def Record.content (record : Record (Pointer Data)) : Record Data :=
  ⟨record.value.map Pointer.content, record.version⟩

theorem bytes_movedFrom (d : Data) : d.movedFrom.bytes = [] := rfl

theorem movedFrom_eq_self {d : Data} (h : d.bytes = []) : d.movedFrom = d := by
  obtain ⟨bytes, hash⟩ := d
  cases h
  rfl

theorem movedFrom_ne {d key : Data} (h : key.bytes ≠ []) : d.movedFrom ≠ key := by
  rintro rfl
  exact h rfl

def NodeBelow (objects : ℕ) (node : Pointer Data × Record (Pointer Data)) : Prop :=
  node.1.object < objects ∧ ∀ p, node.2.value = some p → p.object < objects

structure RecordStore where
  format : InMemoryFormat
  records : PointerMap Data (Record (Pointer Data)) := []
  objects : ℕ := 0
  distinct : ∀ key : Data, key.bytes ≠ [] → records.contents.count key ≤ 1 := by simp
  fresh : ∀ node ∈ records, NodeBelow objects node := by simp

namespace RecordStore

def getRecord (s : RecordStore) (key : Data) : Option (Record (Pointer Data)) :=
  s.records.find key

/-- `near_cache_->get` of a record that has not expired; a value of `none` is
`NULL_OBJECT`. -/
def get (s : RecordStore) (key : Data) : Option (Option Data) :=
  (s.getRecord key).map fun record => record.content.value

def size (s : RecordStore) : ℕ := s.records.length

def count (s : RecordStore) (key : Data) : ℕ := s.records.contents.count key

theorem distinct_put (m : PointerMap Data (Record (Pointer Data))) (p : Pointer Data)
    (record : Record (Pointer Data)) {key : Data} (h : m.contents.count key ≤ 1) :
    (m.put p record).contents.count key ≤ 1 := by
  rw [contents_put]
  split_ifs with hmem
  · exact h
  · by_cases hkey : p.content = key
    · subst hkey
      simp [count_eq_zero.mpr hmem]
    · simpa [count_append, count_cons, hkey] using h

theorem fresh_put {m : PointerMap Data (Record (Pointer Data))} {objects : ℕ}
    (h : ∀ node ∈ m, NodeBelow objects node) (key : Data) (value : Option Data) (version : ℕ) :
    ∀ node ∈ m.put ⟨objects, key⟩ ⟨value.map (Pointer.mk (objects + 1)), version⟩,
      NodeBelow (objects + 2) node := by
  rintro ⟨p, record⟩ hnode
  have hlt {p : Pointer Data} (hp : p.object < objects) : p.object < objects + 2 :=
    hp.trans (Nat.lt_add_of_pos_right Nat.two_pos)
  rcases mem_put hnode with hold | ⟨hrecord, hp⟩
  · exact ⟨hlt (h _ hold).1, fun q hq => hlt ((h _ hold).2 q hq)⟩
  · constructor
    · rcases hp with ⟨rfl, -⟩ | ⟨record', hold⟩
      · exact Nat.lt_add_of_pos_right Nat.two_pos
      · exact hlt (h _ hold).1
    · intro q hq
      simp only at hrecord
      subst hrecord
      obtain ⟨d, -, rfl⟩ := map_eq_some_iff.mp hq
      exact Nat.lt_succ_self (objects + 1)

/-- `put_record` of a new key and a new value object, numbers `objects` and
`objects + 1`. The key object of a node that is there already stays. -/
def put (s : RecordStore) (key : Data) (value : Option Data) (version : ℕ) : RecordStore where
  format := s.format
  records := s.records.put ⟨s.objects, key⟩
    (valueToRecord (value.map (Pointer.mk (s.objects + 1))) version s.format)
  objects := s.objects + 2
  distinct := fun _ hbytes => distinct_put s.records _ _ (s.distinct _ hbytes)
  fresh := by
    rw [valueToRecord_eq]
    exact fresh_put s.fresh key value version

def removeRecord (s : RecordStore) (key : Data) : RecordStore where
  format := s.format
  records := s.records.remove key
  objects := s.objects
  distinct := by
    intro key' hbytes
    rw [contents_remove]
    exact (erase_sublist.count_le key').trans (s.distinct key' hbytes)
  fresh := fun node hnode => s.fresh node (mem_of_mem_remove hnode)

/-- The store after `std::move` of an object that the caller holds as well. -/
def moveFrom (s : RecordStore) (object : ℕ) : RecordStore where
  format := s.format
  records := (s.records.modifyKeys object Data.movedFrom).mapValues (Record.moveFrom object)
  objects := s.objects
  distinct := by
    intro key hbytes
    rw [contents_mapValues]
    exact (count_modifyKeys_le s.records
      fun d heq => absurd heq (movedFrom_ne hbytes)).trans (s.distinct key hbytes)
  fresh := by
    intro node hnode
    obtain ⟨node', hnode', rfl⟩ := mem_mapValues.mp hnode
    obtain ⟨node'', hnode'', rfl⟩ := mem_modifyKeys.mp hnode'
    constructor
    · simpa using (s.fresh node'' hnode'').1
    · intro p hp
      obtain ⟨q, hq, rfl⟩ := map_eq_some_iff.mp hp
      simpa using (s.fresh node'' hnode'').2 q hq

/-! ## Lookups after an operation -/

@[simp] theorem getRecord_put_self (s : RecordStore) (key : Data) (value : Option Data)
    (version : ℕ) : (s.put key value version).getRecord key =
      some ⟨value.map (Pointer.mk (s.objects + 1)), version⟩ := by
  rw [← valueToRecord_eq _ version s.format]
  exact find_put_self s.records ⟨s.objects, key⟩ _

variable (s : RecordStore) {key key' : Data}

theorem getRecord_put_of_ne (value : Option Data) (version : ℕ) (h : key' ≠ key) :
    (s.put key value version).getRecord key' = s.getRecord key' :=
  find_put_of_ne s.records _ h

theorem getRecord_removeRecord_of_ne (h : key' ≠ key) :
    (s.removeRecord key).getRecord key' = s.getRecord key' :=
  find_remove_of_ne s.records h

theorem getRecord_removeRecord_self_iff (key : Data) :
    (s.removeRecord key).getRecord key = none ↔ s.count key ≤ 1 :=
  ⟨count_le_one_of_find_remove, find_remove_self⟩

theorem getRecord_eq_none_iff {s : RecordStore} {key : Data} :
    s.getRecord key = none ↔ s.count key = 0 := by
  rw [getRecord, find_eq_none_iff, count, count_eq_zero]

/-- What is found after a move was found before, or its key has just lost its bytes. -/
theorem getRecord_moveFrom {s : RecordStore} {object : ℕ} {key : Data}
    {record : Record (Pointer Data)} (h : (s.moveFrom object).getRecord key = some record) :
    ∃ old, record = old.moveFrom object ∧ (s.getRecord key = some old ∨
      key.bytes = [] ∧ ∃ p, (p, old) ∈ s.records ∧ p.object = object) := by
  simp only [getRecord, moveFrom, find_mapValues, map_eq_some_iff] at h
  obtain ⟨old, hfind, rfl⟩ := h
  have hcount : key.movedFrom ≠ key → s.records.contents.count key ≤ 1 :=
    fun hne => s.distinct key fun hbytes => hne (movedFrom_eq_self hbytes)
  refine ⟨old, rfl, (find_modifyKeys hcount hfind).imp_right ?_⟩
  rintro ⟨p, hp, hobject, hmoved⟩
  exact ⟨by rw [← hmoved, bytes_movedFrom], p, hp, hobject⟩

end RecordStore

end HazelcastClient.NearCache
