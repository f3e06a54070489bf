import HazelcastClient.Serialization.Portable.Definition

/-!
# Lookups of class definitions

After registrations, a `PortableContext` has the first of them under every key. The key has
only the lower 28 bits of the version, so a request for one version meets a definition of
another version of the class where they agree in these bits.
-/

namespace HazelcastClient.Serialization.Portable

open List

@[ext]
structure DefinitionId where
  factoryId : Int32
  classId : Int32
  version : Int32
  deriving DecidableEq

def ClassDefinition.id (cd : ClassDefinition) : DefinitionId :=
  ⟨cd.factoryId, cd.classId, cd.version⟩

/-- The first definition that is registered for the ids. -/
def firstOf (cds : List ClassDefinition) (id : DefinitionId) : Option ClassDefinition :=
  cds.find? fun cd => cd.id = id

/-- Ids that agree in what `combine_to_long` keeps of them. -/
def DefinitionId.Like (a b : DefinitionId) : Prop :=
  a.factoryId = b.factoryId ∧ a.classId = b.classId ∧
    a.version.toInt % 2 ^ 28 = b.version.toInt % 2 ^ 28
  deriving Decidable

def firstLike (cds : List ClassDefinition) (id : DefinitionId) : Option ClassDefinition :=
  cds.find? fun cd => cd.id.Like id

theorem like_iff (a b : DefinitionId) : a.Like b ↔ a.factoryId = b.factoryId ∧
    combineToLong a.classId a.version = combineToLong b.classId b.version := by
  rw [DefinitionId.Like, combineToLong, combineToLong, ← Int32.toInt_inj (x := a.classId)]
  refine and_congr_right fun _ => ?_
  omega

/-- What becomes of a definition with a version if one is found for its ids, or none. -/
def ClassDefinition.accept (cd : ClassDefinition) : Option ClassDefinition → Result ClassDefinition
  | none => .ok cd
  | some current =>
    if current.same cd then .ok current
    else .error (.thrown (.incompatibleDefinitions cd current))

namespace Context

def find (ctx : Context) (id : DefinitionId) : Option ClassDefinition :=
  ctx.lookup id.factoryId id.classId id.version

/-- A registration that fails leaves the context as it is. -/
def register (ctx : Context) (cd : ClassDefinition) : Context :=
  match ctx.registerClassDefinition cd with
  | .ok (_, ctx') => ctx'
  | .error _ => ctx

variable (ctx : Context)

theorem find_of_like {a b : DefinitionId} (h : a.Like b) : ctx.find a = ctx.find b := by
  obtain ⟨hfactory, hkey⟩ := (like_iff a b).mp h
  rw [find, lookup, hfactory, hkey]
  rfl

/-- A registration is decided by what is found, and is kept if nothing is. -/
theorem registerClassDefinition_spec (cd : ClassDefinition) :
    let cd' := cd.setVersionIfNotSet ctx.version
    (ctx.registerClassDefinition cd).map Prod.fst = cd'.accept (ctx.find cd'.id) ∧
      (ctx.register cd).version = ctx.version ∧
      ∀ id, (ctx.register cd).find id = (ctx.find id).or (firstLike [cd'] id) := by
  simp only [register, registerClassDefinition]
  generalize_proofs hversion
  generalize cd.setVersionIfNotSet ctx.version = cd at hversion ⊢
  have hlookup : ctx.lookup cd.factoryId cd.classId cd.version = ctx.find cd.id := rfl
  cases hfound : ctx.find cd.id with
  | none =>
    simp only [hlookup, hfound]
    refine ⟨rfl, rfl, fun id => ?_⟩
    by_cases hlike : cd.id.Like id
    · obtain ⟨hfactory, hkey⟩ := (like_iff _ _).mp hlike
      rw [(find_of_like ctx hlike).symm.trans hfound, firstLike,
        find?_cons_of_pos (by simpa using hlike)]
      exact if_pos ⟨hfactory.symm, hkey.symm⟩
    · rw [firstLike, find?_cons_of_neg (by simpa using hlike), find?_nil, Option.or_none]
      exact if_neg fun hkey => hlike ((like_iff _ _).mpr ⟨hkey.1.symm, hkey.2.symm⟩)
  | some current =>
    have hkept : ∀ id, ctx.find id = (ctx.find id).or (firstLike [cd] id) := by
      intro id
      by_cases hlike : cd.id.Like id
      · simp [← find_of_like ctx hlike, hfound]
      · simp [firstLike, hlike]
    simp only [hlookup, hfound, ClassDefinition.accept]
    cases current.same cd <;> exact ⟨rfl, rfl, hkept⟩

theorem registerAll_spec (cds : List ClassDefinition) :
    (cds.foldl register ctx).version = ctx.version ∧
      ∀ id, (cds.foldl register ctx).find id =
        (ctx.find id).or (firstLike (cds.map (·.setVersionIfNotSet ctx.version)) id) := by
  induction cds generalizing ctx with
  | nil => exact ⟨rfl, fun id => Option.or_none.symm⟩
  | cons cd cds ih =>
    obtain ⟨-, hversion, hfind⟩ := ctx.registerClassDefinition_spec cd
    refine ⟨(ih _).1.trans hversion, fun id => ((ih _).2 id).trans ?_⟩
    rw [hfind, hversion, Option.or_assoc, firstLike, firstLike, ← find?_append]
    rfl

end Context

theorem firstOf_eq_firstLike_iff (cds : List ClassDefinition) (id : DefinitionId) :
    firstLike cds id = firstOf cds id ↔ ∀ cd ∈ firstLike cds id, cd.id = id := by
  have hlike : id.Like id := ⟨rfl, rfl, rfl⟩
  constructor
  · intro h cd hcd
    rw [h] at hcd
    simpa using find?_some hcd
  · intro h
    induction cds with
    | nil => rfl
    | cons cd cds ih =>
      unfold firstOf firstLike at *
      by_cases hid : cd.id.Like id
      · simp [h cd (by simp [hid]), hlike]
      · have hne : cd.id ≠ id := fun heq => hid (heq ▸ hlike)
        simp only [find?_cons, hid, hne, decide_false] at h ⊢
        exact ih h

/-- After registrations, lookups and registrations for given ids depend on definitions for
these ids only if the first definition under the key is one of them. -/
theorem registered_exact_iff (version : Int32) (cds : List ClassDefinition) (id : DefinitionId) :
    let ctx := cds.foldl Context.register (.empty version)
    let registered := cds.map (·.setVersionIfNotSet version)
    (ctx.lookup id.factoryId id.classId id.version = firstOf registered id ∧
        ∀ cd, (cd.setVersionIfNotSet version).id = id →
          (ctx.registerClassDefinition cd).map Prod.fst =
            (cd.setVersionIfNotSet version).accept (firstOf registered id)) ↔
      ∀ cd ∈ firstLike registered id, cd.id = id := by
  intro ctx registered
  obtain ⟨hversion, hfind⟩ := Context.registerAll_spec (.empty version) cds
  have hlookup : ctx.lookup id.factoryId id.classId id.version = firstLike registered id :=
    hfind id
  rw [hlookup, ← firstOf_eq_firstLike_iff, and_iff_left_iff_imp]
  rintro hfirst cd rfl
  have hspec := (ctx.registerClassDefinition_spec cd).1
  rw [hversion] at hspec
  exact hspec.trans (congrArg _ (hlookup.trans hfirst))

/-- A version that was never registered is found. -/
theorem lookup_of_other_version :
    let ctx := [⟨1, 1, 1, []⟩].foldl Context.register (.empty 0)
    ctx.lookup 1 1 (1 + 2 ^ 28) = some ⟨1, 1, 1, []⟩ ∧
      firstOf [⟨1, 1, 1, []⟩] ⟨1, 1, 1 + 2 ^ 28⟩ = none := by
  decide

end HazelcastClient.Serialization.Portable
