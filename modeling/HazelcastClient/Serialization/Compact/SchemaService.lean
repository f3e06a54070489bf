import HazelcastClient.Serialization.Compact.Schema

/-!
# Replication of compact schemas

`replicate_schema_in_cluster` sends a schema until the members that answered include all
members of the cluster, and then keeps it as replicated. The flag for this has no value
before the first member is looked at, so an empty list of members leaves it as it happens to
be.
-/

namespace HazelcastClient.Serialization.Compact

open List

/-- `operator==` of schemas; of the descriptors of the fields only the kinds are compared. -/
def Schema.same (x y : Schema) : Bool :=
  decide (x.numberOfVarSizeFields = y.numberOfVarSizeFields) &&
    decide (x.fixedSizeFieldsLength = y.fixedSizeFieldsLength) &&
    decide (x.schemaId = y.schemaId) && decide (x.typeName = y.typeName) &&
    decide (x.fields.length = y.fields.length) &&
    x.fields.all fun f => (y.getField f.1).any fun d => d.kind = f.2.kind

inductive ReplicationError where
  | notReplicated (s : Schema) (retries : ℕ)
  | alreadyExists (s existing : Schema)

/-- The place and the message of the `illegal_state`; the message is the format for the
arguments. -/
def ReplicationError.exception : ReplicationError → String × String
  | .notReplicated _ _ => ("default_schema_service::replicate_schema_attempt",
      "The schema %1% cannot be replicated in the cluster, after %2% retries. It might be the " ++
        "case that the client is experiencing a split-brain, and continue putting the data " ++
        "associated with that schema might result in data loss. It might be possible to " ++
        "replicate the schema after some time, when the cluster is healed.")
  | .alreadyExists _ _ => ("default_schema_service::replicate_schema_attempt",
      "Schema with schemaId %1% already exists. Existing schema %2%, new schema %3%")

/-- `replicateds_`. -/
abbrev Replicateds := Int64 → Option Schema

variable {U : Type} [DecidableEq U]

/-- What an attempt meets: the uuids of the response, the members after it, and whether the
client is running after the pause. -/
structure Attempt (U : Type) where
  response : List U
  members : List U
  isRunning : Bool

/-- How the loop over the members ends: at a member that is missing in the response, or with
a value of the flag. -/
inductive Check where
  | missing
  | finished (contains : Bool)

def checkMembers (response : List U) : Bool → List U → Check
  | contains, [] => .finished contains
  | _, m :: members => if m ∈ response then checkMembers response true members else .missing

section Service

variable (s : Schema) (replicateds : Replicateds)

def putIfAbsent : Except ReplicationError Unit × Replicateds :=
  match replicateds s.schemaId with
  | none => (.ok (), Function.update replicateds s.schemaId (some s))
  | some existing =>
    if s.same existing then (.ok (), replicateds)
    else (.error (.alreadyExists s existing), replicateds)

/-- The loop of `replicate_schema_in_cluster` over the attempts that are left; `garbage` is
what the flag happens to be, by their number. -/
def replicateLoop (maxPutRetryCount : ℕ) (garbage : ℕ → Bool) :
    List (Attempt U) → Except ReplicationError Unit × Replicateds
  | [] => (.ok (), replicateds)
  | a :: rest =>
    match checkMembers a.response (garbage rest.length) a.members with
    | .missing =>
      if rest = [] then (.error (.notReplicated s maxPutRetryCount), replicateds)
      else if a.isRunning then replicateLoop maxPutRetryCount garbage rest
      else (.ok (), replicateds)
    | .finished true => putIfAbsent s replicateds
    | .finished false => replicateLoop maxPutRetryCount garbage rest

def replicateSchemaInCluster (attempts : List (Attempt U)) (garbage : ℕ → Bool) :
    Except ReplicationError Unit × Replicateds :=
  replicateLoop s replicateds attempts.length garbage attempts

end Service

def Attempt.Covered (a : Attempt U) : Prop := ∀ m ∈ a.members, m ∈ a.response

/-- What is asked of the outcome: the schema is kept if the response covered the members in
some attempt, and the exception is thrown otherwise. -/
def Specified (s : Schema) (replicateds : Replicateds) (attempts : List (Attempt U))
    (outcome : Except ReplicationError Unit × Replicateds) : Prop :=
  ((∃ a ∈ attempts, a.Covered) → outcome.1 = .ok () ∧ outcome.2 s.schemaId = some s) ∧
    ((∀ a ∈ attempts, ¬ a.Covered) →
      outcome = (.error (.notReplicated s attempts.length), replicateds))

theorem checkMembers_eq (response : List U) (contains : Bool) (members : List U) :
    checkMembers response contains members = if ∀ m ∈ members, m ∈ response then
      .finished (contains || !members.isEmpty) else .missing := by
  induction members generalizing contains with
  | nil => simp [checkMembers]
  | cons m members ih =>
    rw [checkMembers, ih]
    by_cases hm : m ∈ response <;> simp [hm]

section Outcome

variable {s : Schema} {replicateds : Replicateds} {n : ℕ} {garbage : ℕ → Bool}
  {attempts : List (Attempt U)} (hrunning : ∀ a ∈ attempts, a.isRunning) {contains : Bool}
  {a : Attempt U}

theorem check_covered (h : a.Covered) :
    checkMembers a.response contains a.members = .finished (contains || !a.members.isEmpty) := by
  exact (checkMembers_eq _ _ _).trans (if_pos h)

theorem check_missing (h : ¬ a.Covered) :
    checkMembers a.response contains a.members = .missing := by
  exact (checkMembers_eq _ _ _).trans (if_neg h)

include hrunning in
theorem replicateLoop_of_covered (h : ∃ a ∈ attempts, a.members ≠ [] ∧ a.Covered) :
    replicateLoop s replicateds n garbage attempts = putIfAbsent s replicateds := by
  induction attempts with
  | nil => simp at h
  | cons a rest ih =>
    obtain ⟨hrun, hrest⟩ := forall_mem_cons.mp hrunning
    rw [exists_mem_cons_iff] at h
    rw [replicateLoop]
    by_cases hcovered : a.Covered
    · rw [check_covered hcovered]
      by_cases hempty : a.members = []
      · have hlater := h.resolve_left fun hhead => hhead.1 hempty
        cases garbage rest.length with
        | true => rfl
        | false =>
          rw [hempty]
          exact ih hrest hlater
      · have htrue : (garbage rest.length || !a.members.isEmpty) = true := by simp [hempty]
        rw [htrue]
    · have hlater := h.resolve_left fun hhead => hcovered hhead.2
      have hne : rest ≠ [] := fun hnil => by simp [hnil] at hlater
      rw [check_missing hcovered]
      simp [hne, hrun, ih hrest hlater]

include hrunning in
theorem replicateLoop_of_missing (hne : attempts ≠ []) (h : ∀ a ∈ attempts, ¬ a.Covered) :
    replicateLoop s replicateds n garbage attempts = (.error (.notReplicated s n), replicateds) := by
  induction attempts with
  | nil => exact absurd rfl hne
  | cons a rest ih =>
    obtain ⟨hrun, hrest⟩ := forall_mem_cons.mp hrunning
    obtain ⟨hhead, hlater⟩ := forall_mem_cons.mp h
    rw [replicateLoop, check_missing hhead]
    by_cases hlast : rest = []
    · simp [hlast]
    · simp [hlast, hrun, ih hrest hlast hlater]

/-- A schema is kept only by `put_if_absent`. -/
theorem replicateLoop_kept : (replicateLoop s replicateds n garbage attempts).2 = replicateds ∨
    replicateLoop s replicateds n garbage attempts = putIfAbsent s replicateds := by
  induction attempts with
  | nil => exact .inl rfl
  | cons a rest ih =>
    rw [replicateLoop]
    split
    · split_ifs
      · exact .inl rfl
      · exact ih
      · exact .inl rfl
    · exact .inr rfl
    · exact ih

theorem replicateLoop_of_empty (h : ∀ a ∈ attempts, a.Covered → a.members = []) :
    (replicateLoop s replicateds n (fun _ => false) attempts).2 = replicateds := by
  induction attempts with
  | nil => rfl
  | cons a rest ih =>
    obtain ⟨hhead, hlater⟩ := forall_mem_cons.mp h
    rw [replicateLoop]
    by_cases hcovered : a.Covered
    · rw [check_covered hcovered, hhead hcovered]
      exact ih hlater
    · rw [check_missing hcovered]
      dsimp only
      split_ifs
      · rfl
      · exact ih hlater
      · rfl

end Outcome

/-- Whatever the flag happens to be, a schema that is not kept yet is kept as specified if
and only if no list of members decides alone by being empty, and no other schema has its
id when it is put. -/
theorem replicateSchemaInCluster_specified_iff (s : Schema) (replicateds : Replicateds)
    (attempts : List (Attempt U)) (hne : attempts ≠ []) (hrunning : ∀ a ∈ attempts, a.isRunning)
    (hnew : ∀ s' ∈ replicateds s.schemaId, s' ≠ s ∧ s.same s' = false) :
    (∀ garbage, Specified s replicateds attempts
        (replicateSchemaInCluster s replicateds attempts garbage)) ↔
      ((∃ a ∈ attempts, a.members = []) → ∃ a ∈ attempts, a.members ≠ [] ∧ a.Covered) ∧
        ((∃ a ∈ attempts, a.Covered) → replicateds s.schemaId = none) := by
  have hempty : ∀ a : Attempt U, a.members = [] → a.Covered := by
    intro a ha m hm
    simp [ha] at hm
  have hlost : replicateds s.schemaId ≠ some s := fun heq => (hnew s heq).1 rfl
  constructor
  · intro h
    refine ⟨fun ⟨a, ha, hnil⟩ => ?_, fun hcovered => ?_⟩
    · by_contra hno
      push Not at hno
      have hkept := ((h fun _ => false).1 ⟨a, ha, hempty a hnil⟩).2
      rw [replicateSchemaInCluster, replicateLoop_of_empty] at hkept
      · exact hlost hkept
      · exact fun a ha hcovered => by_contra fun hne => hno a ha hne hcovered
    · by_contra hother
      obtain ⟨existing, hexisting⟩ := Option.ne_none_iff_exists'.mp hother
      have hkept := ((h fun _ => false).1 hcovered).2
      have hsame : (replicateSchemaInCluster s replicateds attempts fun _ => false).2 = replicateds := by
        refine replicateLoop_kept.elim id fun heq => ?_
        rw [replicateSchemaInCluster, heq, putIfAbsent, hexisting]
        simp [hnew existing hexisting]
      rw [hsame] at hkept
      exact hlost hkept
  · rintro ⟨hfull, hfree⟩ garbage
    refine ⟨fun hcovered => ?_, fun hmissing => replicateLoop_of_missing hrunning hne hmissing⟩
    obtain ⟨a, ha, hcov⟩ := hcovered
    have hfound : ∃ a ∈ attempts, a.members ≠ [] ∧ a.Covered := by
      by_cases hnil : a.members = []
      · exact hfull ⟨a, ha, hnil⟩
      · exact ⟨a, ha, hnil, hcov⟩
    rw [replicateSchemaInCluster, replicateLoop_of_covered hrunning hfound, putIfAbsent,
      hfree ⟨a, ha, hcov⟩]
    exact ⟨rfl, Function.update_self _ _ _⟩

def emptySchema : Schema := ⟨[], [], 0, 0, 0⟩

/-- The schema is kept although no member has it, or not kept although the call returns, by
what the flag happens to be. -/
theorem replicate_without_members :
    let attempt : Attempt ℕ := ⟨[], [], true⟩
    (replicateSchemaInCluster emptySchema (fun _ => none) [attempt] fun _ => true).2 0 =
        some emptySchema ∧
      (replicateSchemaInCluster emptySchema (fun _ => none) [attempt] fun _ => false).1 = .ok () ∧
      (replicateSchemaInCluster emptySchema (fun _ => none) [attempt] fun _ => false).2 0 = none :=
  ⟨rfl, rfl, rfl⟩

/-- The second attempt covers both members. -/
theorem replicateSchemaInCluster_specified_iff_retried :
    Specified emptySchema (fun _ => none) [⟨[1, 2], [1], true⟩, ⟨[1, 2], [1, 2], true⟩]
      (replicateSchemaInCluster emptySchema (fun _ => none)
        [⟨[1, 2], [1], true⟩, ⟨[1, 2], [1, 2], true⟩] fun _ => true) := by
  refine (replicateSchemaInCluster_specified_iff _ _ _ (by simp) (by simp) (by simp)).mpr ⟨?_, ?_⟩ _
  · simp
  · simp

end HazelcastClient.Serialization.Compact
