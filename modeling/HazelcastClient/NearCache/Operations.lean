import HazelcastClient.Util.HashUtil
import HazelcastClient.Interleaving.Machine

/-!
# Operations of a near cache

A cached map keeps the values it has read in a record store. `get_internal` marks
the slot of its key while it reads from the member and stores what it has read;
an invalidation turns the mark of the slot into a removal, and then removes the
record. A reader that does not find its mark any more invalidates what it has
just stored. Keys with the same slot share a mark.

The members hold the map. `changes key` counts the changes of a key, and a record
remembers how many of them its read has seen. An invalidation reports one change,
and it can start once the change has happened.
-/

namespace HazelcastClient.NearCache

open Interleaving Function

inductive Mark where
  | unmarked
  | marked
  | removed
  deriving DecidableEq

/-- The keys of a map and its `n` marker slots, one for each partition. -/
structure Markers (K : Type) (n : ℕ) where
  partitionHash : K → ℤ
  pos : 0 < n

def Markers.getSlot {K : Type} {n : ℕ} (markers : Markers K n) (key : K) : Fin n :=
  ⟨Util.hashToIndex (markers.partitionHash key) n, Nat.mod_lt _ markers.pos⟩

/-- A record of the store. A value of `none` is the `NULL_OBJECT` of an absent entry;
`version` is the number of changes that the read has seen. -/
structure Record (V : Type) where
  value : Option V
  version : ℕ
  deriving DecidableEq

structure Cache (K V : Type) (n : ℕ) where
  marks : Fin n → Mark := fun _ => .unmarked
  store : K → Option (Record V) := fun _ => none
  /-- The map on the members. -/
  server : K → Option V
  changes : K → ℕ := fun _ => 0

namespace Cache

variable {K V : Type} {n : ℕ}

def setMark (s : Cache K V n) (slot : Fin n) (mark : Mark) : Cache K V n :=
  { s with marks := update s.marks slot mark }

def casState (s : Cache K V n) (slot : Fin n) (expect update : Mark) : Cache K V n × Bool :=
  if s.marks slot = expect then (s.setMark slot update, true) else (s, false)

def tryMark (markers : Markers K n) (s : Cache K V n) (key : K) : Cache K V n × Bool :=
  s.casState (markers.getSlot key) .unmarked .marked

def tryUnmark (markers : Markers K n) (s : Cache K V n) (key : K) : Cache K V n × Bool :=
  s.casState (markers.getSlot key) .marked .unmarked

def tryRemove (markers : Markers K n) (s : Cache K V n) (key : K) : Cache K V n × Bool :=
  s.casState (markers.getSlot key) .marked .removed

def forceUnmark (markers : Markers K n) (s : Cache K V n) (key : K) : Cache K V n :=
  s.setMark (markers.getSlot key) .unmarked

variable [DecidableEq K]

def putRecord (s : Cache K V n) (key : K) (record : Record V) : Cache K V n :=
  { s with store := update s.store key (some record) }

def removeRecord (s : Cache K V n) (key : K) : Cache K V n :=
  { s with store := update s.store key none }

def change (s : Cache K V n) (key : K) (value : Option V) : Cache K V n :=
  { s with
    server := update s.server key value
    changes := update s.changes key (s.changes key + 1) }

end Cache

/-! ## Threads -/

inductive Invalidate where
  | tryRemove
  | remove
  deriving DecidableEq

/-- `get_internal`, `try_to_put_near_cache` and `reset_to_unmarked_state`. -/
inductive Get (V : Type) where
  | lookup
  | expire
  | tryMark
  | remoteRead (marked : Bool)
  | put (record : Record V)
  | tryUnmark
  | invalidating (pc : Invalidate)
  | forceUnmark
  deriving DecidableEq

inductive Frame (K V : Type) where
  | get (key : K) (pc : Get V)
  | invalidate (key : K) (change : ℕ) (pc : Invalidate)
  deriving DecidableEq

inductive Choice (K V : Type) where
  | go
  | expired
  | full
  | get (key : K)
  | change (key : K) (value : Option V)
  | invalidate (key : K) (change : ℕ)
  | evict (key : K)
  deriving DecidableEq

/-- An invalidation has tried to remove the mark; it has removed the record. -/
inductive Event (K : Type) where
  | tried (key : K) (change : ℕ)
  | processed (key : K) (change : ℕ)
  deriving DecidableEq

section Steps

variable {K V : Type} {n : ℕ} [DecidableEq K]

/-- One step of `invalidate`, and the place after it. -/
def fireInvalidate (markers : Markers K n) (s : Cache K V n) (key : K) :
    Invalidate → Cache K V n × Option Invalidate
  | .tryRemove => ((s.tryRemove markers key).1, some .remove)
  | .remove => (s.removeRecord key, none)

/-- One step of `get_internal`. The remote read succeeds. A full store without
eviction does not take a new key. -/
def fireGet (markers : Markers K n) (s : Cache K V n) (choice : Choice K V) (key : K) :
    Get V → Option (Effect (Cache K V n) Unit (Frame K V) (Event K))
  | .lookup =>
    match s.store key, choice with
    | none, _ => some { shared := s, next := [.get key .tryMark] }
    | some _, .expired => some { shared := s, next := [.get key .expire] }
    | some _, _ => some { shared := s }
  | .expire => some { shared := s.removeRecord key, next := [.get key .tryMark] }
  | .tryMark =>
    let (s', marked) := s.tryMark markers key
    some { shared := s', next := [.get key (.remoteRead marked)] }
  | .remoteRead marked =>
    some {
      shared := s
      next := if marked then [.get key (.put ⟨s.server key, s.changes key⟩)] else [] }
  | .put record =>
    match choice with
    | .full => if s.store key = none then some { shared := s, next := [.get key .tryUnmark] }
        else none
    | _ => some { shared := s.putRecord key record, next := [.get key .tryUnmark] }
  | .tryUnmark =>
    let (s', done) := s.tryUnmark markers key
    some { shared := s', next := if done then [] else [.get key (.invalidating .tryRemove)] }
  | .invalidating pc =>
    match fireInvalidate markers s key pc with
    | (s', some pc') => some { shared := s', next := [.get key (.invalidating pc')] }
    | (s', none) => some { shared := s', next := [.get key .forceUnmark] }
  | .forceUnmark => some { shared := s.forceUnmark markers key }

def fire (markers : Markers K n) (s : Cache K V n) (choice : Choice K V) :
    Frame K V → Option (Effect (Cache K V n) Unit (Frame K V) (Event K))
  | .get key pc => fireGet markers s choice key pc
  | .invalidate key change pc =>
    match fireInvalidate markers s key pc with
    | (s', some pc') => some {
        shared := s'
        next := [.invalidate key change pc']
        event := some (.tried key change) }
    | (s', none) => some { shared := s', event := some (.processed key change) }

/-- One step of the environment: a caller, a member, the listener of invalidations,
or an eviction. -/
def outside (s : Cache K V n) :
    Choice K V → Option (Effect (Cache K V n) Unit (Frame K V) (Event K))
  | .get key => some { shared := s, spawned := [⟨(), [.get key .lookup]⟩] }
  | .change key value => some { shared := s.change key value }
  | .invalidate key change =>
    if change ≤ s.changes key then
      some { shared := s, spawned := [⟨(), [.invalidate key change .tryRemove]⟩] }
    else none
  | .evict key => some { shared := s.removeRecord key }
  | _ => none

def cachedMap (markers : Markers K n) :
    Machine (Cache K V n) Unit (Frame K V) (Choice K V) (Event K) where
  fire := fun s _ choice f => fire markers s choice f
  outside := outside

def start (n : ℕ) (server : K → Option V) : Config (Cache K V n) Unit (Frame K V) :=
  ⟨{ server := server }, []⟩

end Steps

end HazelcastClient.NearCache
