import HazelcastClient.Serialization.Portable.Object

/-!
# The definitions of portable classes

`definition` is the class definition that belongs to the serializer of a class. A context
`Defines` the classes if it has these definitions for the versions that it uses.
-/

namespace HazelcastClient.Serialization.Portable

open List ClassDefinition

open Compact (Name)

variable {Ty : Type} (cls : Ty → Class Ty) (version : Ty → Int32)

/-- The ids and the version of the class of a nested object, and those of another field of a
class with the version `own`. -/
def Kind.target (own : Int32) : Kind Ty → Int32 × Int32 × Int32
  | .simple _ => (0, 0, own)
  | .portable t _ => ((cls t).factoryId, (cls t).classId, version t)
  | .portableArray t => ((cls t).factoryId, (cls t).classId, version t)

/-- The definition of the field with the number `i`. -/
def fieldDefinition (own : Int32) (i : ℕ) (field : Name × Kind Ty) : FieldDefinition :=
  let target := field.2.target cls version own
  ⟨i, field.1, field.2.fieldType, target.1, target.2.1, target.2.2⟩

/-- The definitions of fields that are numbered from `i` on. -/
def fieldDefinitions (own : Int32) : ℕ → List (Name × Kind Ty) → List FieldDefinition
  | _, [] => []
  | i, field :: fields =>
    fieldDefinition cls version own i field :: fieldDefinitions own (i + 1) fields

def definition (t : Ty) : ClassDefinition :=
  ⟨(cls t).factoryId, (cls t).classId, version t,
    fieldDefinitions cls version (version t) 0 (cls t).fields⟩

def versionIn (ctx : Context) (t : Ty) : Int32 :=
  (cls t).getVersion ctx.version

def Defines (ctx : Context) : Prop :=
  ∀ t, ctx.lookup (cls t).factoryId (cls t).classId (versionIn cls ctx t) =
    some (definition cls (versionIn cls ctx) t)

variable {cls version} {own : Int32} {i j : ℕ}
  {fields : List (Name × Kind Ty)} {field : Name × Kind Ty}

@[simp] theorem fieldDefinitions_length :
    (fieldDefinitions cls version own i fields).length = fields.length := by
  induction fields generalizing i with
  | nil => rfl
  | cons field fields ih => exact congrArg (· + 1) ih

theorem fieldDefinitions_names :
    (fieldDefinitions cls version own i fields).map FieldDefinition.name = fields.map Prod.fst := by
  induction fields generalizing i with
  | nil => rfl
  | cons field fields ih => exact congrArg (field.1 :: ·) ih

theorem fieldDefinitions_getElem? (hj : fields[j]? = some field) :
    (fieldDefinitions cls version own i fields)[j]? =
      some (fieldDefinition cls version own (i + j) field) := by
  induction fields generalizing i j with
  | nil => cases hj
  | cons first fields ih =>
    cases j with
    | zero =>
      obtain rfl := Option.some.inj hj
      rfl
    | succ j =>
      rw [List.getElem?_cons_succ] at hj
      rw [fieldDefinitions, List.getElem?_cons_succ, ih hj, Nat.add_right_comm, Nat.add_assoc]

variable {cd : ClassDefinition} {fd : FieldDefinition}

theorem mem_of_find {name : Name} (h : cd.find name = some fd) :
    fd ∈ cd.fields ∧ fd.name = name := by
  have hname := List.find?_some h
  exact ⟨mem_of_find?_eq_some h, of_decide_eq_true hname⟩

theorem find_of_mem (hnodup : (cd.fields.map FieldDefinition.name).Nodup) (hmem : fd ∈ cd.fields) :
    cd.find fd.name = some fd := by
  obtain ⟨factoryId, classId, v, fds⟩ := cd
  change fds.find? _ = _
  dsimp only at hnodup hmem
  induction fds with
  | nil => cases hmem
  | cons first fds ih =>
    rw [map_cons, nodup_cons] at hnodup
    rcases mem_cons.mp hmem with rfl | htail
    · exact List.find?_cons_of_pos (decide_eq_true rfl)
    · have hne : first.name ≠ fd.name := fun heq =>
        hnodup.1 (heq ▸ mem_map_of_mem htail)
      rw [List.find?_cons_of_neg (by simp [hne])]
      exact ih hnodup.2 htail

theorem definition_nodup (version : Ty → Int32) (t : Ty) :
    ((definition cls version t).fields.map FieldDefinition.name).Nodup := by
  rw [definition, fieldDefinitions_names]
  exact (cls t).nodup

theorem find_definition {t : Ty} (hj : (cls t).fields[j]? = some field) :
    (definition cls version t).find field.1 =
      some (fieldDefinition cls version (version t) j field) := by
  have hget : (definition cls version t).fields[j]? =
      some (fieldDefinition cls version (version t) (0 + j) field) :=
    fieldDefinitions_getElem? hj
  rw [Nat.zero_add] at hget
  exact find_of_mem (definition_nodup version t) (mem_of_getElem? hget)

/-! ## Registration -/

section Registration

variable {fds : List FieldDefinition} {factoryId classId : Int32} {ctx : Context}

variable {cd : ClassDefinition}

theorem same_self (hnodup : (cd.fields.map FieldDefinition.name).Nodup) :
    cd.same cd = true := by
  have hall : cd.fields.all (fun fd => (cd.find fd.name).any fd.same) = true := by
    rw [all_eq_true]
    intro fd hmem
    rw [find_of_mem hnodup hmem]
    simp [FieldDefinition.same]
  simp only [same, decide_true, Bool.true_and]
  exact hall

variable {acc : List FieldDefinition}

theorem foldl_addFieldDef (hnodup : ((acc ++ fds).map FieldDefinition.name).Nodup) :
    fds.foldl addFieldDef acc = acc ++ fds := by
  induction fds generalizing acc with
  | nil => rw [foldl_nil, append_nil]
  | cons fd fds ih =>
    have hnew : acc.any (fun old => decide (old.name = fd.name)) = false := by
      rw [any_eq_false]
      intro old hold heq
      rw [map_append, nodup_append] at hnodup
      exact hnodup.2.2 old.name (mem_map_of_mem hold) fd.name
        (mem_map_of_mem mem_cons_self) (of_decide_eq_true heq)
    have hstep : addFieldDef acc fd = acc ++ [fd] := by
      rw [addFieldDef, hnew]
      rfl
    rw [foldl_cons, hstep, ih]
    · rw [append_assoc, singleton_append]
    · rwa [append_assoc, singleton_append]

theorem addFieldDef_cases (acc : List FieldDefinition) (fd : FieldDefinition) :
    (addFieldDef acc fd).length = acc.length ∨
      addFieldDef acc fd = acc ++ [fd] := by
  unfold addFieldDef
  split
  · exact .inl (length_map _)
  · exact .inr rfl

theorem foldl_addFieldDef_length (fds acc : List FieldDefinition) :
    (fds.foldl addFieldDef acc).length ≤ acc.length + fds.length := by
  induction fds generalizing acc with
  | nil => exact Nat.le_refl _
  | cons fd fds ih =>
    have hrest := ih (addFieldDef acc fd)
    rw [foldl_cons, length_cons]
    rcases addFieldDef_cases acc fd with hshort | heq
    · omega
    · rw [heq, length_append, length_singleton] at hrest
      rw [heq]
      omega

/-- A builder has as many fields as it was given only if it keeps them all. -/
theorem foldl_addFieldDef_of_length
    (h : (fds.foldl addFieldDef acc).length = acc.length + fds.length) :
    fds.foldl addFieldDef acc = acc ++ fds := by
  induction fds generalizing acc with
  | nil => rw [foldl_nil, append_nil]
  | cons fd fds ih =>
    rw [foldl_cons, length_cons] at h
    rcases addFieldDef_cases acc fd with hshort | heq
    · have hrest := foldl_addFieldDef_length fds (addFieldDef acc fd)
      omega
    · rw [heq] at h
      rw [foldl_cons, heq, ih, append_assoc, singleton_append]
      rw [h, length_append, length_singleton]
      omega

theorem nodup_foldl_addFieldDef (hnodup : (acc.map FieldDefinition.name).Nodup) :
    ((fds.foldl addFieldDef acc).map FieldDefinition.name).Nodup := by
  induction fds generalizing acc with
  | nil => exact hnodup
  | cons fd fds ih =>
    refine ih ?_
    unfold addFieldDef
    split
    · have hsame : (acc.map fun old => if old.name = fd.name then fd else old).map
          FieldDefinition.name = acc.map FieldDefinition.name := by
        rw [map_map]
        refine map_congr_left fun old _ => ?_
        rw [Function.comp_apply]
        split
        · rename_i heq
          exact heq.symm
        · rfl
      rwa [hsame]
    · rename_i hnew
      rw [map_append, nodup_append]
      refine ⟨hnodup, nodup_singleton _, ?_⟩
      intro a ha b hb heq
      obtain ⟨old, hold, rfl⟩ := mem_map.mp ha
      rw [map_singleton, mem_singleton] at hb
      exact hnew (any_eq_true.mpr ⟨old, hold, decide_eq_true (heq.trans hb)⟩)

theorem setVersionIfNotSet_of {version : Int32} (h : 0 ≤ cd.version ∨ cd.version = version) :
    cd.setVersionIfNotSet version = cd := by
  unfold setVersionIfNotSet
  split
  · rename_i hneg
    rcases h with hpos | rfl
    · exact absurd hpos (Int32.not_le.mpr hneg)
    · rfl
  · rfl

theorem define_definitions (cd : ClassDefinition) (h : 0 ≤ cd.version ∨ cd.version = ctx.version)
    (factoryId : Int32) (key : ℤ) : (ctx.define cd h).definitions factoryId key =
      if factoryId = cd.factoryId ∧ key = combineToLong cd.classId cd.version then some cd
      else ctx.definitions factoryId key := rfl

/-- A definition is registered in a context that has no other one in its place. -/
theorem registerClassDefinition_ok (hnodup : (cd.fields.map FieldDefinition.name).Nodup)
    (hversion : 0 ≤ cd.version ∨ cd.version = ctx.version)
    (hlookup : ctx.lookup cd.factoryId cd.classId cd.version = none ∨
      ctx.lookup cd.factoryId cd.classId cd.version = some cd) :
    ∃ ctx', ctx.registerClassDefinition cd = .ok (cd, ctx') ∧ ctx'.version = ctx.version ∧
      ctx'.classVersions = ctx.classVersions ∧
      ∀ factoryId key, ctx'.definitions factoryId key =
        if factoryId = cd.factoryId ∧ key = combineToLong cd.classId cd.version then some cd
        else ctx.definitions factoryId key := by
  have hsame : cd.setVersionIfNotSet ctx.version = cd := setVersionIfNotSet_of hversion
  unfold Context.registerClassDefinition
  dsimp only
  split
  · refine ⟨ctx.define _ _, congrArg (fun c => Except.ok (c, _)) hsame, rfl, rfl, fun f key => ?_⟩
    rw [define_definitions, hsame]
  · rename_i current hcurrent
    rw [hsame] at hcurrent
    rcases hlookup with hnone | hsome
    · rw [hnone] at hcurrent
      cases hcurrent
    · obtain rfl : current = cd := Option.some.inj (hcurrent.symm.trans hsome)
      rw [hsame, if_pos (same_self hnodup)]
      refine ⟨ctx, rfl, rfl, rfl, fun f key => ?_⟩
      split
      · rename_i hkey
        rw [hkey.1, hkey.2]
        exact hsome
      · rfl

end Registration

end HazelcastClient.Serialization.Portable
