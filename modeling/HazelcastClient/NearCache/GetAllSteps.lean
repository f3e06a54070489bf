import HazelcastClient.NearCache.GetAll

/-!
# `get_all` beside other calls

The steps of `get_all_internal`, of `get_internal` and of invalidations over a
near cache of shared objects. `get_all_internal` does in one step what it does to
the marks or to the store at once; a guarded put goes on as `get_internal` does
after its put.

The other operations are those of `cachedMap`. They see the records as a lookup
finds them, and `storeAfter` is what their steps do to the objects of the store.
-/

namespace HazelcastClient.NearCache

open Interleaving Aliasing Serialization

/-- An entry of the answer, and the changes of the key that the read has seen. -/
structure Fetched where
  key : Data
  value : Data
  version : ℕ
  deriving DecidableEq

/-- Where a call of `get_all_internal` stands. -/
inductive GetAll where
  | lookup (keys : List Data) (b : Batch)
  | expire (key : Data) (keys : List Data) (b : Batch)
  | tryMark (key : Data) (keys : List Data) (b : Batch)
  | remoteRead (b : Batch)
  | put (entries : List Fetched) (b : Batch)
  | moveOut (object : ℕ) (entry : Fetched) (entries : List Fetched) (b : Batch)
  | unmark (b : Batch)
  deriving DecidableEq

inductive MapFrame where
  | op (f : Frame Data Data)
  | getAll (pc : GetAll)
  deriving DecidableEq

inductive MapChoice where
  | op (choice : Choice Data Data)
  | getAll (keys : List Data)
  | answer (entries : List Fetched)

section Steps

variable {n : ℕ}

/-- What the members answer, in the order of the request. -/
def ObjectCache.answer (s : ObjectCache n) (keys : List Data) : List Fetched :=
  keys.filterMap fun key => (s.server key).map fun value => ⟨key, value, s.changes key⟩

/-- One step of `get_all_internal`. The remote read succeeds, and its entries come in
any order. -/
def fireGetAll (markers : Markers Data n) (s : ObjectCache n) (choice : MapChoice) :
    GetAll → Option (Effect (ObjectCache n) Unit MapFrame (Event Data))
  | .lookup [] b =>
    some { shared := s, next := if b.remainingKeys.isEmpty then [] else [.getAll (.remoteRead b)] }
  | .lookup (key :: keys) b =>
    match s.store.get key, choice with
    | none, _ => some { shared := s, next := [.getAll (.tryMark key keys b)] }
    | some _, .op .expired => some { shared := s, next := [.getAll (.expire key keys b)] }
    | some none, _ => some { shared := s, next := [.getAll (.tryMark key keys b)] }
    | some (some value), _ =>
      some { shared := s, next := [.getAll (.lookup keys
        { b with result := b.result ++ [(key, value)] })] }
  | .expire key keys b =>
    some {
      shared := { s with store := s.store.removeRecord key }
      next := [.getAll (.tryMark key keys b)] }
  | .tryMark key keys b =>
    let (s', marked) := s.tryMark markers key
    some { shared := s', next := [.getAll (.lookup keys { b with
      markers := b.markers.mark key marked
      remainingKeys := b.remainingKeys ++ [key] })] }
  | .remoteRead b =>
    match choice with
    | .answer entries =>
      if entries.Perm (s.answer b.remainingKeys) then
        some { shared := s, next := [.getAll (.put entries b)] }
      else none
    | _ => none
  | .put [] b => some { shared := s, next := [.getAll (.unmark b)] }
  | .put (entry :: entries) b =>
    let marked := (b.markers.find entry.key).getD false
    let b' := { b with markers := b.markers.remove entry.key }
    let guard : List MapFrame := if marked then [.op (.get entry.key .tryUnmark)] else []
    match choice with
    | .op .full =>
      if s.store.getRecord entry.key = none then
        some { shared := s, next := guard ++ [.getAll (.put entries { b' with
          result := b.result ++ [(entry.key, entry.value)] })] }
      else none
    | _ =>
      some {
        shared := s.put entry.key entry.value entry.version
        next := guard ++ [.getAll (.moveOut s.store.objects entry entries b')] }
  | .moveOut object entry entries b =>
    some { shared := s.moveOut object, next := [.getAll (.put entries { b with
      result := b.result ++ [(entry.key, entry.value)] })] }
  | .unmark b =>
    match b.markers with
    | [] => some { shared := s }
    | e :: m =>
      some {
        shared := if e.2 then s.forceUnmark markers e.1.content else s
        next := [.getAll (.unmark { b with markers := m })] }

/-- The store after a step of another operation. Its put makes new objects, which
nobody else holds. -/
def storeAfter (store : RecordStore) (choice : Choice Data Data) : Frame Data Data → RecordStore
  | .get key .expire => store.removeRecord key
  | .get key (.put record) =>
    if choice = .full then store else store.put key record.value record.version
  | .get key (.invalidating .remove) => store.removeRecord key
  | .invalidate key _ .remove => store.removeRecord key
  | _ => store

def fireOp (markers : Markers Data n) (s : ObjectCache n) (choice : Choice Data Data)
    (f : Frame Data Data) : Option (Effect (ObjectCache n) Unit MapFrame (Event Data)) :=
  (fire markers s.toCache choice f).map fun e =>
    { shared := { s with marks := e.shared.marks, store := storeAfter s.store choice f }
      next := e.next.map .op
      event := e.event }

def fireMap (markers : Markers Data n) (s : ObjectCache n) (choice : MapChoice) :
    MapFrame → Option (Effect (ObjectCache n) Unit MapFrame (Event Data))
  | .op f =>
    match choice with
    | .op choice => fireOp markers s choice f
    | _ => none
  | .getAll pc => fireGetAll markers s choice pc

/-- One step of the environment. The keys of `get_all` are a set. -/
def outsideMap (s : ObjectCache n) :
    MapChoice → Option (Effect (ObjectCache n) Unit MapFrame (Event Data))
  | .getAll keys =>
    if keys.Nodup then some { shared := s, spawned := [⟨(), [.getAll (.lookup keys {})]⟩] }
    else none
  | .op (.evict key) => some { shared := { s with store := s.store.removeRecord key } }
  | .op choice =>
    (outside s.toCache choice).map fun e =>
      { shared := { s with server := e.shared.server, changes := e.shared.changes }
        spawned := e.spawned.map fun t => ⟨t.pool, t.stack.map .op⟩
        event := e.event }
  | .answer _ => none

def objectMap (markers : Markers Data n) :
    Machine (ObjectCache n) Unit MapFrame MapChoice (Event Data) where
  fire := fun s _ choice f => fireMap markers s choice f
  outside := outsideMap

def startMap (n : ℕ) (format : InMemoryFormat) (server : Data → Option Data) :
    Config (ObjectCache n) Unit MapFrame :=
  ⟨{ store := { format := format }, server := server }, []⟩

end Steps

end HazelcastClient.NearCache
