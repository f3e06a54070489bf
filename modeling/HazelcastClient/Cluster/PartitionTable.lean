import HazelcastClient.Interleaving.CompareExchange
import Mathlib.Data.List.AList

/-!
# The partition table

`ClientPartitionServiceImpl` keeps the owners of the partitions in a table that it
replaces as a whole. `handle_event` runs on the threads of the event executor; it reads
the table, decides whether the event is newer, and exchanges the table for the one of the
event, or starts over when another call was faster.

Connection ids are counted from one, and the table that the constructor installs has the
id zero for "none". The test `!current.connection_id` does not tell that table from one
that an event with the id zero has installed.
-/

namespace HazelcastClient.Partition

open Interleaving List Option

variable {U : Type}

/-- `partition_table`; `U` is the type of the uuids of the members. -/
structure PartitionTable (U : Type) where
  connectionId : ℤ
  version : ℤ
  partitions : AList fun _ : ℤ => U
  deriving DecidableEq

/-- The arguments of `handle_event`. -/
structure PartitionEvent (U : Type) where
  connectionId : ℤ
  version : ℤ
  partitions : List (U × List ℤ)
  deriving DecidableEq

/-- `insert` of an unordered map, which keeps what is there. -/
def insertPartition (table : AList fun _ : ℤ => U) (owner : U) (pid : ℤ) :
    AList fun _ : ℤ => U :=
  if pid ∈ table then table else table.insert pid owner

def convertToMap (partitions : List (U × List ℤ)) : AList fun _ : ℤ => U :=
  partitions.foldl (fun table e => e.2.foldl (insertPartition · e.1) table) ∅

def initialTable : PartitionTable U := ⟨0, -1, ∅⟩

namespace PartitionEvent

def table (e : PartitionEvent U) : PartitionTable U :=
  ⟨e.connectionId, e.version, convertToMap e.partitions⟩

def shouldBeApplied (e : PartitionEvent U) (current : PartitionTable U) : Bool :=
  if e.partitions.isEmpty then false
  else if current.connectionId = 0 ∨ e.connectionId ≠ current.connectionId then true
  else if e.version ≤ current.version then false
  else true

def update (e : PartitionEvent U) (current : PartitionTable U) : Option (PartitionTable U) :=
  if e.shouldBeApplied current then some e.table else none

def owner (e : PartitionEvent U) (pid : ℤ) : Option U :=
  (e.partitions.find? fun entry => pid ∈ entry.2).map Prod.fst

end PartitionEvent

/-- The calls of `handle_event` on the threads of the event executor. -/
def handleEvent : Machine (Cell (PartitionTable U)) Unit
    (ExchangeFrame (PartitionEvent U) (PartitionTable U)) (PartitionEvent U)
    (CallEvent (PartitionEvent U)) :=
  exchangeLoop PartitionEvent.update

section Map

section

variable (table : AList fun _ : ℤ => U)

theorem lookup_insertPartition (owner : U) (pid key : ℤ) :
    (insertPartition table owner pid).lookup key =
      (table.lookup key).or (if key = pid then some owner else none) := by
  unfold insertPartition
  by_cases hkey : key = pid
  · subst hkey
    by_cases hmem : key ∈ table
    · obtain ⟨u, hu⟩ := isSome_iff_exists.mp (AList.lookup_isSome.mpr hmem)
      simp [hmem, hu]
    · simp [hmem, AList.lookup_eq_none.mpr hmem]
  · rw [if_neg hkey, or_none]
    split
    · rfl
    · exact AList.lookup_insert_ne hkey

theorem lookup_foldl_insertPartition (owner : U) (pids : List ℤ) (key : ℤ) :
    (pids.foldl (insertPartition · owner) table).lookup key =
      (table.lookup key).or (if key ∈ pids then some owner else none) := by
  induction pids generalizing table with
  | nil => simp
  | cons pid pids ih =>
    rw [List.foldl_cons, ih, lookup_insertPartition, Option.or_assoc]
    congr 1
    by_cases hkey : key = pid
    · simp [hkey]
    · simp [hkey]

theorem lookup_foldl_entries (entries : List (U × List ℤ)) (key : ℤ) :
    (entries.foldl (fun table e => e.2.foldl (insertPartition · e.1) table) table).lookup key =
      (table.lookup key).or ((entries.find? fun entry => key ∈ entry.2).map Prod.fst) := by
  induction entries generalizing table with
  | nil => simp
  | cons entry entries ih =>
    rw [List.foldl_cons, ih, lookup_foldl_insertPartition, Option.or_assoc]
    congr 1
    by_cases hkey : key ∈ entry.2
    · simp [hkey]
    · simp [hkey]

end

theorem lookup_table (e : PartitionEvent U) (pid : ℤ) :
    e.table.partitions.lookup pid = e.owner pid := by
  show (convertToMap e.partitions).lookup pid = e.owner pid
  rw [convertToMap, lookup_foldl_entries]
  simp [PartitionEvent.owner]

end Map

variable {e : PartitionEvent U} {events : List (CallEvent (PartitionEvent U))}
  {history : List (PartitionTable U)}

/-- The table after `old` belongs to another connection or is newer. -/
def Follows (new old : PartitionTable U) : Prop :=
  new.connectionId ≠ old.connectionId ∨ old.version < new.version

/-- The table after `old` in a history follows it, unless `old` has the connection id that
stands for none. -/
def Advances (new old : PartitionTable U) : Prop := old.connectionId = 0 ∨ Follows new old

/-- An event that is applied brings partitions, and comes from another connection or with
a larger version. -/
theorem PartitionEvent.update_eq_some {old new : PartitionTable U} (h : e.update old = some new) :
    new = e.table ∧ e.partitions ≠ [] ∧ Advances new old := by
  obtain ⟨happly, ⟨⟩⟩ := Option.ite_none_right_eq_some.mp h
  revert happly
  fun_cases shouldBeApplied <;> rintro ⟨⟩
  · rename_i hne hconn
    exact ⟨rfl, by simpa using hne, hconn.imp_right .inl⟩
  · rename_i hne _ hversion
    exact ⟨rfl, by simpa using hne, .inr (.inr (not_le.mp hversion))⟩

structure PartitionTable.IsMapOf (t : PartitionTable U) (e : PartitionEvent U) : Prop where
  nonempty : e.partitions ≠ []
  connectionId : t.connectionId = e.connectionId
  version : t.version = e.version
  complete : ∀ pid, t.partitions.lookup pid = e.owner pid

/-- Every table but the first one is the map of an event that `handle_event` was called
with. -/
def OfEvents (events : List (CallEvent (PartitionEvent U)))
    (history : List (PartitionTable U)) : Prop :=
  ∃ installed, history = installed ++ [initialTable] ∧
    ∀ t ∈ installed, ∃ e, .called e ∈ events ∧ t.IsMapOf e

theorem OfEvents.append (h : OfEvents events history) (more : List (CallEvent (PartitionEvent U))) :
    OfEvents (events ++ more) history := by
  obtain ⟨installed, hhist, htables⟩ := h
  refine ⟨installed, hhist, fun t ht => ?_⟩
  obtain ⟨e, hcalled, hmap⟩ := htables t ht
  exact ⟨e, mem_append_left _ hcalled, hmap⟩

theorem OfEvents.cons (h : OfEvents events history) (hcalled : .called e ∈ events)
    (hparts : e.partitions ≠ []) :
    OfEvents events (e.table :: history) := by
  obtain ⟨installed, hhist, htables⟩ := h
  refine ⟨e.table :: installed, by rw [hhist, cons_append], fun t ht => ?_⟩
  rcases mem_cons.mp ht with rfl | ht
  · exact ⟨e, hcalled, hparts, rfl, rfl, lookup_table e⟩
  · exact htables t ht

/-- Whatever the threads do, every table but the first one is the complete map of an event
with partitions that `handle_event` was called with, and each is newer than the one before
it or of another connection, unless that one has the id for none; no event of a
connection leaves a table of which this is so. -/
theorem table_advances {events : List (CallEvent (PartitionEvent U))}
    {c : Config (Cell (PartitionTable U)) Unit
      (ExchangeFrame (PartitionEvent U) (PartitionTable U))}
    (h : Run handleEvent Always (.ofCell initialTable) events c) :
    OfEvents events c.shared.history ∧ c.shared.history.IsChain Advances ∧
      ((∀ e, .called e ∈ events → 1 ≤ e.connectionId) → c.shared.history.IsChain Follows) := by
  refine h.cellInvariant (P := fun es cell =>
    OfEvents es cell.history ∧ cell.history.IsChain Advances ∧
      ((∀ e, .called e ∈ es → 1 ≤ e.connectionId) → cell.history.IsChain Follows)) ?_ ?_ ?_ ?_
  · rintro es c call ⟨htables, hchain, hfollows⟩ - -
    exact ⟨htables.append _, hchain, fun hids => hfollows fun e he => hids e (mem_append_left _ he)⟩
  · rintro es c call new ⟨htables, hchain, hfollows⟩ hcalled hup
    obtain ⟨rfl, hparts, hadv⟩ := PartitionEvent.update_eq_some hup
    rw [Cell.history_install]
    refine ⟨(htables.cons hcalled hparts).append _, isChain_cons_cons.mpr ⟨hadv, hchain⟩,
      fun hids => isChain_cons_cons.mpr ⟨?_, hfollows fun e he => hids e (mem_append_left _ he)⟩⟩
    rcases hadv with hnone | hadv
    · have hid : 1 ≤ call.connectionId := hids call (mem_append_left _ hcalled)
      exact .inl (by rw [hnone]; exact Int.ne_of_gt hid)
    · exact hadv
  · exact ⟨⟨[], rfl, by simp⟩, by simp [Cell.history], by simp [Cell.history]⟩
  · rintro es c call ⟨htables, hchain, hfollows⟩ -
    exact ⟨htables.append _, hchain, fun hids => hfollows fun e he => hids e (mem_append_left _ he)⟩

/-- Two calls race; the one that loses is older by then and gives up. -/
theorem table_advances_race :
    ∃ events c, Run (handleEvent (U := ℕ)) Always (.ofCell initialTable) events c ∧
      c.shared.history = [PartitionEvent.table ⟨1, 4, [(7, [0])]⟩, initialTable] ∧
      OfEvents events c.shared.history ∧ c.shared.history.IsChain Follows := by
  let newer : PartitionEvent ℕ := ⟨1, 4, [(7, [0])]⟩
  let older : PartitionEvent ℕ := ⟨1, 3, [(8, [0])]⟩
  have hexec : ∃ events c, handleEvent.execAll (fun _ _ => true) (.ofCell initialTable)
      [.outside older, .outside newer, .thread 0 older, .thread 1 newer, .thread 1 newer,
        .thread 0 older, .thread 0 older] = some (events, c) ∧
      c.shared.history = [newer.table, initialTable] ∧
      events = [.called older, .called newer, .returned newer, .returned older] :=
    ⟨_, _, rfl, rfl, rfl⟩
  obtain ⟨events, c, hexec, hhist, hevents⟩ := hexec
  have hrun := (Run.of_execAll hexec).always
  obtain ⟨htables, -, hfollows⟩ := table_advances hrun
  refine ⟨events, c, hrun, hhist, htables, hfollows fun e he => ?_⟩
  obtain rfl | rfl : e = older ∨ e = newer := by simpa [hevents] using he
  · decide
  · decide

/-- Before an event is applied the table is the one of the constructor, and not the map of an
event of a connection. -/
theorem table_of_no_event :
    ∃ events c, Run (handleEvent (U := ℕ)) Always (.ofCell initialTable) events c ∧
      ∀ e, 1 ≤ e.connectionId → ¬ c.shared.current.IsMapOf e := by
  refine ⟨[], _, .refl _, fun e hid hmap => ?_⟩
  have hzero : 0 = e.connectionId := hmap.connectionId
  omega

end HazelcastClient.Partition
