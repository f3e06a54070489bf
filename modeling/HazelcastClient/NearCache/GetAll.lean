import HazelcastClient.NearCache.RecordStore

/-!
# Reading many keys through a near cache

`get_all_internal` looks every key up in the near cache and marks those it does
not find. It asks the members for the rest, puts what comes back into the near
cache, guarded by the mark if it finds the key in its marker map, and gives the
remaining marks free.

The marker map has the key objects, and so has the record store; both lose the
bytes of their keys when the objects are moved into the request and into the
result.
-/

namespace HazelcastClient.NearCache

open Aliasing Serialization

/-- The slot of a key depends on its hash only. -/
def keyMarkers {n : ℕ} (pos : 0 < n) : Markers Data n :=
  ⟨fun key => key.getPartitionHash.toInt, pos⟩

@[simp] theorem getSlot_movedFrom {n : ℕ} (pos : 0 < n) (key : Data) :
    (keyMarkers pos).getSlot key.movedFrom = (keyMarkers pos).getSlot key := rfl

structure ObjectCache (n : ℕ) where
  marks : Fin n → Mark := fun _ => .unmarked
  store : RecordStore
  server : Data → Option Data
  changes : Data → ℕ := fun _ => 0

namespace ObjectCache

variable {n : ℕ}

def toCache (s : ObjectCache n) : Cache Data Data n where
  marks := s.marks
  store := fun key => (s.store.getRecord key).map Record.content
  server := s.server
  changes := s.changes

def tryMark (markers : Markers Data n) (s : ObjectCache n) (key : Data) : ObjectCache n × Bool :=
  let (c, marked) := s.toCache.tryMark markers key
  ({ s with marks := c.marks }, marked)

def forceUnmark (markers : Markers Data n) (s : ObjectCache n) (key : Data) : ObjectCache n :=
  { s with marks := (s.toCache.forceUnmark markers key).marks }

def put (s : ObjectCache n) (key value : Data) (version : ℕ) : ObjectCache n :=
  { s with store := s.store.put key (some value) version }

def invalidate (markers : Markers Data n) (s : ObjectCache n) (key : Data) : ObjectCache n :=
  { s with
    marks := (s.toCache.tryRemove markers key).1.marks
    store := s.store.removeRecord key }

def resetToUnmarkedState (markers : Markers Data n) (s : ObjectCache n) (key : Data) :
    ObjectCache n :=
  let (c, done) := s.toCache.tryUnmark markers key
  if done then { s with marks := c.marks } else (s.invalidate markers key).forceUnmark markers key

/-- The entry that has been put last is moved to the result: its key object, which
has the given number, and its value object, which has the next one. -/
def moveOut (s : ObjectCache n) (object : ℕ) : ObjectCache n :=
  { s with store := (s.store.moveFrom object).moveFrom (object + 1) }

@[simp] theorem tryMark_store (markers : Markers Data n) (s : ObjectCache n) (key : Data) :
    (s.tryMark markers key).1.store = s.store := rfl

@[simp] theorem tryMark_changes (markers : Markers Data n) (s : ObjectCache n) (key : Data) :
    (s.tryMark markers key).1.changes = s.changes := rfl

variable {markers : Markers Data n} {s : ObjectCache n} {key : Data}

theorem tryMark_of_unmarked (h : s.marks (markers.getSlot key) = .unmarked) :
    s.tryMark markers key =
      ({ s with marks := Function.update s.marks (markers.getSlot key) .marked }, true) := by
  simp [tryMark, toCache, Cache.tryMark, Cache.casState, Cache.setMark, h]

theorem tryMark_of_ne (h : s.marks (markers.getSlot key) ≠ .unmarked) :
    s.tryMark markers key = (s, false) := by
  simp [tryMark, toCache, Cache.tryMark, Cache.casState, h]

end ObjectCache

/-! ## The call -/

abbrev MarkerMap := PointerMap Data Bool

namespace MarkerMap

/-- A new key object with its mark. The object is moved to the request right after. -/
def mark (m : MarkerMap) (key : Data) (marked : Bool) : MarkerMap :=
  (m.put ⟨m.length, key⟩ marked).modifyKeys m.length Data.movedFrom

end MarkerMap

/-- The variables of `get_all_internal`. -/
structure Batch where
  result : List (Data × Data) := []
  markers : MarkerMap := []
  remainingKeys : List Data := []
  deriving DecidableEq

section Call

variable {n : ℕ}

/-- The value of a key in the near cache, unless it is `NULL_OBJECT`. -/
def cachedValue (store : RecordStore) (key : Data) : Option Data := (store.get key).join

def lookUpKey (markers : Markers Data n) (invalidateOnChange : Bool)
    (state : ObjectCache n × Batch) (key : Data) : ObjectCache n × Batch :=
  let (s, b) := state
  match cachedValue s.store key with
  | some value => (s, { b with result := b.result ++ [(key, value)] })
  | none =>
    if invalidateOnChange then
      let (s', marked) := s.tryMark markers key
      (s', { b with
        markers := b.markers.mark key marked
        remainingKeys := b.remainingKeys ++ [key] })
    else (s, { b with remainingKeys := b.remainingKeys ++ [key] })

def storeEntry (markers : Markers Data n) (state : ObjectCache n × Batch) (entry : Data × Data) :
    ObjectCache n × Batch :=
  let (s, b) := state
  let (key, value) := entry
  let marked := (b.markers.find key).getD false
  let s₁ := s.put key value (s.changes key)
  let s₂ := if marked then s₁.resetToUnmarkedState markers key else s₁
  (s₂.moveOut s.store.objects, { b with
    markers := b.markers.remove key
    result := b.result ++ [(key, value)] })

def unmarkRemainingMarkedKeys (markers : Markers Data n) (s : ObjectCache n) (m : MarkerMap) :
    ObjectCache n :=
  m.foldl (fun s e => if e.2 then s.forceUnmark markers e.1.content else s) s

/-- `get_all_internal`; `remote` is the remote read. -/
def getAllInternal (markers : Markers Data n) (invalidateOnChange : Bool) (s : ObjectCache n)
    (keys : List Data) (remote : List Data → List (Data × Data)) :
    ObjectCache n × List (Data × Data) :=
  let (s, b) := keys.foldl (lookUpKey markers invalidateOnChange) (s, {})
  if b.remainingKeys.isEmpty then (s, b.result)
  else
    let (s, b) := (remote b.remainingKeys).foldl (storeEntry markers) (s, b)
    (unmarkRemainingMarkedKeys markers s b.markers, b.result)

end Call

end HazelcastClient.NearCache
