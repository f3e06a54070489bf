import HazelcastClient.Replay.SetLog

/-!
# Member list and membership events

`ClientClusterServiceImpl` keeps a snapshot of the member list and tells its
listeners what has changed. The first list replaces the empty snapshot and is
announced as a whole; every later one is compared with the list before it, the
members that are gone are announced first and the new ones after them.

`EMPTY_SNAPSHOT` is recognised by its address, so a list that has been cleared is
not the empty snapshot again; it is `none` here. The maps from uuids to members
are lists in the order of insertion. Nothing depends on that order.
-/

namespace HazelcastClient.Cluster

open Replay List

structure EndpointQualifier where
  type : ℤ
  identifier : String
  deriving DecidableEq

namespace EndpointQualifier

def client : EndpointQualifier := ⟨1, ""⟩

def member : EndpointQualifier := ⟨0, ""⟩

end EndpointQualifier

/-- A member with an address of type `A`; its attributes play no role. -/
structure Member (U A : Type) where
  uuid : U
  address : A
  addressMap : List (EndpointQualifier × A) := []
  deriving DecidableEq

variable {U A : Type}

namespace Member

def find (m : Member U A) (qualifier : EndpointQualifier) : Option A :=
  m.addressMap.lookup qualifier

/-- The member as `create_snapshot` stores it: with the address for clients, or the
one for members. The source asserts that one of the two is there. -/
def withPublicAddress (m : Member U A) : Member U A :=
  if m.addressMap.isEmpty then m
  else
    { m with address := ((m.find .client).orElse fun _ => m.find .member).getD m.address }

end Member

variable [DecidableEq U]

structure MemberMap (U A : Type) where
  toList : List (Member U A)
  nodup : (toList.map Member.uuid).Nodup

namespace MemberMap

def uuids (members : MemberMap U A) : Finset U := (members.toList.map Member.uuid).toFinset

def empty : MemberMap U A := ⟨[], nodup_nil⟩

/-- `insert` leaves the map as it is when the key is there. -/
def insert (members : MemberMap U A) (m : Member U A) : MemberMap U A :=
  if h : m.uuid ∈ members.toList.map Member.uuid then members
  else
    { toList := members.toList ++ [m]
      nodup := by
        rw [map_append, map_singleton]
        exact nodup_append.mpr ⟨members.nodup, nodup_singleton _, by
          intro a ha b hb
          rw [mem_singleton.mp hb]
          exact fun heq => h (heq ▸ ha)⟩ }

/-- `erase` of a key. -/
def erase (members : MemberMap U A) (uuid : U) : MemberMap U A where
  toList := members.toList.filter fun m => m.uuid ≠ uuid
  nodup := members.nodup.sublist (filter_sublist.map _)

end MemberMap

/-- `member_list_snapshot`. -/
structure Snapshot (U A : Type) where
  version : ℤ
  members : MemberMap U A

/-- What `member_list_snapshot_` points to; `none` is `EMPTY_SNAPSHOT`. -/
abbrev View (U A : Type) := Option (Snapshot U A)

namespace View

def version (view : View U A) : ℤ := view.elim (-1) Snapshot.version

def members (view : View U A) : MemberMap U A := view.elim .empty Snapshot.members

end View

inductive Event (U A : Type) where
  | initial (members : List (Member U A))
  | joined (member : Member U A) (members : List (Member U A))
  | left (member : Member U A) (members : List (Member U A))

namespace Event

def isInitial : Event U A → Bool
  | initial _ => true
  | joined _ _ | left _ _ => false

def isJoined : Event U A → Bool
  | joined _ _ => true
  | initial _ | left _ _ => false

def isLeft : Event U A → Bool
  | left _ _ => true
  | initial _ | joined _ _ => false

def change : Event U A → Change U
  | initial members => .reset (members.map Member.uuid).toFinset
  | joined member _ => .add member.uuid
  | left member _ => .remove member.uuid

end Event

/-- The events that reach a listener: without an `init_` handler it is not told of
the first list. -/
def heard (init : Bool) (events : List (Event U A)) : List (Event U A) :=
  events.filter fun e => init || !e.isInitial

/-! ## The service -/

def createSnapshot (version : ℤ) (infos : List (Member U A)) : Snapshot U A where
  version := version
  members := infos.foldl (fun members m => members.insert m.withPublicAddress) .empty

/-- The loop over the current members: those that are new, in order, and what is left
of the previous ones. -/
def detectLoop (previous : MemberMap U A) :
    List (Member U A) → MemberMap U A × List (Member U A)
  | [] => (previous, [])
  | e :: current =>
    if e.uuid ∈ previous.toList.map Member.uuid then detectLoop (previous.erase e.uuid) current
    else ((detectLoop previous current).1, e :: (detectLoop previous current).2)

def detectMembershipEvents (previous current : MemberMap U A) : List (Event U A) :=
  let (rest, newMembers) := detectLoop previous current.toList
  rest.toList.map (.left · current.toList) ++ newMembers.map (.joined · current.toList)

def handleEvent (view : View U A) (version : ℤ) (infos : List (Member U A)) :
    View U A × List (Event U A) :=
  let snapshot := createSnapshot version infos
  match view with
  | none => (some snapshot, [.initial snapshot.members.toList])
  | some previous =>
    if previous.version ≤ version then
      (some snapshot, detectMembershipEvents previous.members snapshot.members)
    else (some previous, [])

def clearMemberListVersion (view : View U A) : View U A :=
  view.map fun snapshot => { snapshot with version := 0 }

def clearMemberList (view : View U A) : View U A × List (Event U A) :=
  (some ⟨0, .empty⟩, detectMembershipEvents view.members .empty)

inductive Call (U A : Type) where
  | handleEvent (version : ℤ) (infos : List (Member U A))
  | clearMemberListVersion
  | clearMemberList

def perform (view : View U A) : Call U A → View U A × List (Event U A)
  | .handleEvent version infos => handleEvent view version infos
  | .clearMemberListVersion => (clearMemberListVersion view, [])
  | .clearMemberList => clearMemberList view

def performAll (calls : List (Call U A)) : View U A × List (Event U A) :=
  calls.foldl (fun r call =>
    ((perform r.1 call).1, r.2 ++ (perform r.1 call).2)) (none, [])

variable (calls : List (Call U A)) (view : View U A) (call : Call U A)

theorem performAll_append :
    performAll (calls ++ [call]) =
      ((perform (performAll calls).1 call).1,
        (performAll calls).2 ++ (perform (performAll calls).1 call).2) := by
  simp [performAll]

/-! ## What a call announces -/

theorem detectLoop_spec (previous : MemberMap U A) (current : List (Member U A))
    (h : (current.map Member.uuid).Nodup) :
    (detectLoop previous current).1.toList =
        previous.toList.filter (fun m => m.uuid ∉ current.map Member.uuid) ∧
      (detectLoop previous current).2 =
        current.filter (fun m => m.uuid ∉ previous.toList.map Member.uuid) := by
  induction current generalizing previous with
  | nil => simp [detectLoop]
  | cons e current ih =>
    rw [map_cons, nodup_cons] at h
    obtain ⟨he, hcurrent⟩ := h
    unfold detectLoop
    split
    · rename_i hmem
      obtain ⟨hrest, hnew⟩ := ih (previous.erase e.uuid) hcurrent
      constructor
      · rw [hrest, MemberMap.erase, filter_filter]
        refine filter_congr fun m _ => ?_
        rw [← Bool.decide_and, decide_eq_decide, map_cons, mem_cons, not_or, and_comm]
      · rw [hnew, filter_cons_of_neg (by simpa using hmem)]
        refine filter_congr fun m hm => ?_
        -- The erased key is not that of a later member.
        have hne : m.uuid ≠ e.uuid := fun heq => he (heq ▸ mem_map_of_mem hm)
        rw [decide_eq_decide, not_iff_not]
        simp only [MemberMap.erase, mem_map, mem_filter, decide_eq_true_eq]
        refine exists_congr fun a => ?_
        constructor
        · rintro ⟨⟨ha, -⟩, heq⟩
          exact ⟨ha, heq⟩
        · rintro ⟨ha, heq⟩
          exact ⟨⟨ha, heq ▸ hne⟩, heq⟩
    · rename_i hmem
      obtain ⟨hrest, hnew⟩ := ih previous hcurrent
      constructor
      · rw [hrest]
        refine filter_congr fun m hm => ?_
        have hne : m.uuid ≠ e.uuid := fun heq => hmem (heq ▸ mem_map_of_mem hm)
        simp [hne]
      · rw [hnew, filter_cons_of_pos (by simpa using hmem)]

section

variable (previous current : MemberMap U A)

theorem detect_changes :
    ∃ gone new : List U,
      (detectMembershipEvents previous current).map Event.change =
        gone.map .remove ++ new.map .add ∧
      gone.Nodup ∧ new.Nodup ∧ gone.toFinset = previous.uuids \ current.uuids ∧
      new.toFinset = current.uuids \ previous.uuids := by
  obtain ⟨hrest, hnew⟩ := detectLoop_spec previous current.toList current.nodup
  refine ⟨(detectLoop previous current.toList).1.toList.map Member.uuid,
    (detectLoop previous current.toList).2.map Member.uuid, ?_, ?_, ?_, ?_, ?_⟩
  · simp [detectMembershipEvents, Event.change, Function.comp_def]
  · exact (detectLoop previous current.toList).1.nodup
  · rw [hnew]
    exact current.nodup.sublist (filter_sublist.map _)
  all_goals
    ext x
    simp only [hrest, hnew, MemberMap.uuids, mem_toFinset, mem_map, mem_filter,
      decide_eq_true_eq, Finset.mem_sdiff]
    constructor
    · rintro ⟨m, ⟨hm, hnot⟩, rfl⟩
      exact ⟨⟨m, hm, rfl⟩, hnot⟩
    · rintro ⟨⟨m, hm, rfl⟩, hnot⟩
      exact ⟨m, ⟨hm, hnot⟩, rfl⟩

theorem detect_replay :
    replay previous.uuids ((detectMembershipEvents previous current).map Event.change) =
        current.uuids ∧
      Legal previous.uuids ((detectMembershipEvents previous current).map Event.change) := by
  obtain ⟨gone, new, hchanges, hgone, hnew, hgone', hnew'⟩ := detect_changes previous current
  rw [hchanges, replay_append, legal_append, replay_removes, replay_adds, hgone', hnew']
  refine ⟨?_, legal_removes _ _ hgone ?_, legal_adds _ _ hnew ?_⟩
  · ext x
    simp only [Finset.mem_union, Finset.mem_sdiff]
    tauto
  · intro a ha
    exact (Finset.mem_sdiff.mp (hgone' ▸ mem_toFinset.mpr ha)).1
  · intro a ha hmem
    have hnot := (Finset.mem_sdiff.mp (hnew' ▸ mem_toFinset.mpr ha)).2
    simp only [Finset.mem_sdiff] at hmem
    exact hnot (by tauto)

theorem detect_ordered :
    (detectMembershipEvents previous current).Pairwise
      fun e e' => e.isJoined = true → e'.isLeft = false := by
  refine pairwise_append.mpr ⟨?_, ?_, ?_⟩
  · exact pairwise_map.mpr (pairwise_of_forall fun _ _ h => by cases h)
  · exact pairwise_map.mpr (pairwise_of_forall fun _ _ _ => rfl)
  · intro e he e' he' hjoined
    obtain ⟨m, -, rfl⟩ := mem_map.mp he
    cases hjoined

end

/-- A call leads a listener from the uuids before it to the uuids after it. -/
theorem perform_replay :
    replay view.members.uuids ((perform view call).2.map Event.change) =
        (perform view call).1.members.uuids ∧
      Legal view.members.uuids ((perform view call).2.map Event.change) := by
  cases call with
  | handleEvent version infos =>
    cases view with
    | none => exact ⟨rfl, trivial, trivial⟩
    | some previous =>
      simp only [perform, handleEvent]
      split
      · exact detect_replay previous.members (createSnapshot version infos).members
      · exact ⟨rfl, trivial⟩
  | clearMemberListVersion => cases view <;> exact ⟨rfl, trivial⟩
  | clearMemberList => exact detect_replay view.members .empty

theorem performAll_replay :
    replay ∅ ((performAll calls).2.map Event.change) = (performAll calls).1.members.uuids ∧
      Legal ∅ ((performAll calls).2.map Event.change) := by
  induction calls using List.reverseRecOn with
  | nil => exact ⟨rfl, trivial⟩
  | append_singleton calls call ih =>
    obtain ⟨hreplay, hlegal⟩ := perform_replay (performAll calls).1 call
    rw [performAll_append, map_append, replay_append, legal_append, ih.1]
    exact ⟨hreplay, ih.2, hlegal⟩

theorem perform_ordered :
    (perform view call).2.Pairwise fun e e' => e.isJoined = true → e'.isLeft = false := by
  cases call with
  | handleEvent version infos =>
    cases view with
    | none => exact pairwise_singleton _ _
    | some previous =>
      simp only [perform, handleEvent]
      split
      · exact detect_ordered _ _
      · exact List.Pairwise.nil
  | clearMemberListVersion => exact List.Pairwise.nil
  | clearMemberList => exact detect_ordered _ _

/-- After every sequence of calls a listener that was there from the start, and is told
of the first list, knows the current uuids, and no event it got was out of place. In one
call the departures come first. Once a list has come in, an older one is ignored. -/
theorem membership_events_replay (calls : List (Call U A)) :
    replay ∅ ((heard true (performAll calls).2).map Event.change) =
        (performAll calls).1.members.uuids ∧
      Legal ∅ ((heard true (performAll calls).2).map Event.change) ∧
      (∀ call, (perform (performAll calls).1 call).2.Pairwise
        fun e e' => e.isJoined = true → e'.isLeft = false) ∧
      ∀ version infos, (performAll calls).1 ≠ none → version < (performAll calls).1.version →
        perform (performAll calls).1 (.handleEvent version infos) = ((performAll calls).1, []) := by
  have hheard : heard true (performAll calls).2 = (performAll calls).2 := by simp [heard]
  obtain ⟨hreplay, hlegal⟩ := performAll_replay calls
  rw [hheard]
  refine ⟨hreplay, hlegal, fun call => perform_ordered _ call, ?_⟩
  intro version infos hne hlt
  cases hview : (performAll calls).1 with
  | none => exact absurd hview hne
  | some previous =>
    rw [hview] at hlt
    exact if_neg (not_le.mpr hlt)

/-- The first list is taken whatever its version: the empty snapshot has the version
`-1` and does not turn the version `-2` away. -/
theorem first_list_any_version :
    (-2 : ℤ) < View.version (none : View ℕ ℕ) ∧
      (perform none (.handleEvent (-2) [⟨7, 0, []⟩])).1.members.uuids = ({7} : Finset ℕ) := by
  decide

/-! ## The wait for the first list -/

namespace Call

def isHandleEvent : Call U A → Bool
  | handleEvent _ _ => true
  | clearMemberListVersion | clearMemberList => false

/-- Whether the call counts `initial_list_fetched_latch_` down. -/
def releases (view : View U A) (call : Call U A) : Bool := call.isHandleEvent && view.isNone

end Call

/-- Whether a call of a sequence has released the latch. -/
def releasedFrom (view : View U A) : List (Call U A) → Bool
  | [] => false
  | call :: calls => call.releases view || releasedFrom (perform view call).1 calls

theorem releasedFrom_iff (hfirst : ∀ call ∈ calls, call.isHandleEvent = false) (view : View U A)
    (version : ℤ) (infos : List (Member U A)) :
    releasedFrom view (calls ++ [.handleEvent version infos]) = true ↔
      view = none ∧ .clearMemberList ∉ calls := by
  induction calls generalizing view with
  | nil => simp [releasedFrom, Call.releases, Call.isHandleEvent]
  | cons call calls ih =>
    obtain ⟨hcall, hcalls⟩ := forall_mem_cons.mp hfirst
    rw [cons_append, releasedFrom, Call.releases, hcall, Bool.false_and, Bool.false_or, ih hcalls]
    cases call with
    | handleEvent version infos => cases hcall
    | clearMemberListVersion => simp [perform, clearMemberListVersion]
    | clearMemberList => simp [perform, clearMemberList]

/-- The first list releases the latch exactly if the member list has not been cleared before
it: a cleared list is not the empty snapshot. -/
theorem released_by_first_list_iff (calls : List (Call U A))
    (hfirst : ∀ call ∈ calls, call.isHandleEvent = false) (version : ℤ)
    (infos : List (Member U A)) :
    releasedFrom none (calls ++ [.handleEvent version infos]) = true ↔
      .clearMemberList ∉ calls := by
  rw [releasedFrom_iff calls hfirst]
  exact and_iff_right rfl

theorem released_by_first_list_iff_reset :
    releasedFrom none
      [.clearMemberListVersion, .handleEvent 1 [(⟨7, 0, []⟩ : Member ℕ ℕ)]] = true :=
  (released_by_first_list_iff [.clearMemberListVersion] (by simp [Call.isHandleEvent]) 1 _).mpr
    (by simp)

/-- The cluster changes before the first list: the list is kept, and the latch is not released. -/
theorem first_list_after_clear :
    (performAll [.clearMemberList, .handleEvent 1 [(⟨7, 0, []⟩ : Member ℕ ℕ)]]).1.members.uuids =
        {7} ∧
      releasedFrom none [.clearMemberList, .handleEvent 1 [(⟨7, 0, []⟩ : Member ℕ ℕ)]] = false := by
  decide

end HazelcastClient.Cluster
