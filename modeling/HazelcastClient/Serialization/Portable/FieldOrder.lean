import HazelcastClient.Serialization.Portable.Lookup
import HazelcastClient.Serialization.Portable.Schema
import HazelcastClient.Serialization.Portable.Reader

/-!
# The order of the fields of a class

`operator==` of class definitions does not look at the indices of the fields, so definitions
with the same fields in another order are accepted for the same class and version. A reader
goes through the index of its own definition: through two of them it finds the fields of a
record at the same positions if and only if they have been added in the same order.
-/

namespace HazelcastClient.Serialization.Portable

open Compact (Name intMax)

open ByteParser List FieldDefinition Context

variable {cd cd' found : ClassDefinition} {version : Int32}

/-- A definition has its fields in a map with their names as keys. -/
def Built (cd : ClassDefinition) : Prop :=
  ∃ fields : List FieldDefinition, cd.fields = fields.foldl ClassDefinition.addFieldDef []

theorem Built.nodup (h : Built cd) : (cd.fields.map name).Nodup := by
  obtain ⟨fields, heq⟩ := h
  rw [heq]
  exact nodup_foldl_addFieldDef nodup_nil

theorem fields_setVersionIfNotSet : (cd.setVersionIfNotSet version).fields = cd.fields := by
  unfold ClassDefinition.setVersionIfNotSet
  split <;> rfl

theorem find_setVersionIfNotSet (name : Name) :
    (cd.setVersionIfNotSet version).find name = cd.find name := by
  rw [ClassDefinition.find, fields_setVersionIfNotSet]
  rfl

section Same

def FieldDefinition.unnumbered (fd : FieldDefinition) : FieldDefinition := { fd with index := 0 }

theorem unnumbered_eq_of_same {fd fd' : FieldDefinition} (h : fd.same fd' = true) :
    fd.unnumbered = fd'.unnumbered := by
  simp only [same, Bool.and_eq_true, decide_eq_true_eq] at h
  obtain ⟨⟨⟨⟨hname, htype⟩, hclass⟩, hfactory⟩, hversion⟩ := h
  simp [unnumbered, *]

/-- The same fields, whatever their indices are. -/
def Alike (cd cd' : ClassDefinition) : Prop :=
  ∀ name, (cd.find name).map unnumbered =
    (cd'.find name).map unnumbered

theorem alike_of_same (hcd : Built cd) (h : cd.same cd' = true) :
    Alike cd cd' := by
  simp only [ClassDefinition.same, Bool.and_eq_true, decide_eq_true_eq, all_eq_true,
    Option.any_eq_true] at h
  obtain ⟨⟨-, hlength⟩, hall⟩ := h
  have hsub : cd.fields.map name ⊆ cd'.fields.map name := by
    intro name hname
    obtain ⟨fd, hfd, rfl⟩ := mem_map.mp hname
    obtain ⟨fd', hfd', -⟩ := hall fd hfd
    obtain ⟨hmem, hname'⟩ := mem_of_find hfd'
    exact hname' ▸ mem_map_of_mem hmem
  have hperm := (subperm_of_subset hcd.nodup hsub).perm_of_length_le (by simp [hlength])
  intro name
  cases hfind : cd.find name with
  | some fd =>
    obtain ⟨hmem, rfl⟩ := mem_of_find hfind
    obtain ⟨fd', hfd', hsame⟩ := hall fd hmem
    rw [hfd', Option.map_some, Option.map_some, unnumbered_eq_of_same hsame]
  | none =>
    cases hfind' : cd'.find name with
    | none => rfl
    | some fd' =>
      obtain ⟨hmem', rfl⟩ := mem_of_find hfind'
      obtain ⟨fd, hmem, hname⟩ := mem_map.mp (hperm.mem_iff.mpr (mem_map_of_mem hmem'))
      rw [← hname, find_of_mem hcd.nodup hmem] at hfind
      cases hfind

end Same

section Reading

/-- Readers with these definitions find every field at the same position of a stream, or
throw the same exception. -/
def ReadAlike (cd cd' : ClassDefinition) : Prop :=
  ∀ order (r : Reader) name type,
    { r with cd := cd }.setPosition order name type =
      { r with cd := cd' }.setPosition order name type

theorem setPosition_empty {name : Name} {fd : FieldDefinition} (h : cd.find name = some fd) :
    (⟨cd, 0, 1, true, false⟩ : Reader).setPosition .big name fd.type [] 0 =
      .error (.stream (.thrown (.notEnoughBytes 0 (1 + fd.index * 4)))) := by
  have hseek : seek ((1 + fd.index * 4 : ℕ) : ℤ) [] 0 =
      .error (.stream (.thrown (.notEnoughBytes 0 (1 + fd.index * 4)))) := by
    rw [seek, if_neg (by omega), if_pos (by simp; omega), Int.toNat_natCast]
    rfl
  simp only [Reader.setPosition, h, Bool.false_eq_true, if_false, ne_eq, not_true]
  exact Parser.bind_of_error (Parser.bind_of_error hseek)

theorem readAlike_iff (h : Alike cd cd') : ReadAlike cd cd' ↔ ∀ name,
    (cd.find name).map index = (cd'.find name).map index := by
  refine ⟨fun hread name => ?_, fun hindex order r name type => ?_⟩
  · have heq := h name
    cases hfd : cd.find name with
    | none => simp_all
    | some fd =>
      obtain ⟨fd', hfd', hsame⟩ : ∃ fd', cd'.find name = some fd' ∧
          fd'.unnumbered = fd.unnumbered := by simpa [hfd, eq_comm] using heq
      have htype : fd'.unnumbered.type = fd.unnumbered.type := by rw [hsame]
      have hthrow := congrFun (congrFun (hread .big ⟨cd, 0, 1, true, false⟩ name fd.type) []) 0
      rw [setPosition_empty hfd, ← show fd'.type = fd.type from htype,
        setPosition_empty hfd'] at hthrow
      simp only [Except.error.injEq, Failure.stream.injEq, Compact.Failure.thrown.injEq,
        Compact.Error.notEnoughBytes.injEq] at hthrow
      rw [hfd']
      exact congrArg some (by omega)
  · have heq : cd.find name = cd'.find name := by
      have hboth := And.intro (h name) (hindex name)
      revert hboth
      cases cd.find name <;> cases cd'.find name <;>
        simp +contextual [FieldDefinition.unnumbered, FieldDefinition.ext_iff]
    simp only [Reader.setPosition, heq]

end Reading

section Accepted

variable {ctx : Context}

theorem same_of_isOk (h : (ctx.registerClassDefinition cd).isOk) :
    ∀ current ∈ ctx.find (cd.setVersionIfNotSet ctx.version).id,
      current.same (cd.setVersionIfNotSet ctx.version) = true := by
  have hspec := (ctx.registerClassDefinition_spec cd).1
  intro current hcurrent
  rw [hcurrent, ClassDefinition.accept] at hspec
  by_contra hother
  rw [if_neg hother] at hspec
  cases hreg : ctx.registerClassDefinition cd with
  | error e => rw [hreg] at h; cases h
  | ok r => rw [hreg] at hspec; cases hspec

theorem alike_of_isOk (h : (ctx.registerClassDefinition cd).isOk) (hbuilt : Built found)
    (hfound : ctx.find (cd.setVersionIfNotSet ctx.version).id = some found) : Alike found cd := by
  intro name
  rw [alike_of_same hbuilt (same_of_isOk h found hfound) name, find_setVersionIfNotSet]

/-- An accepted definition has the same fields as the one that is kept then. -/
theorem stored_of_accepted (hstored : ∀ id, ∀ d ∈ ctx.find id, Built d) (hcd : Built cd)
    (h : (ctx.registerClassDefinition cd).isOk) : ∃ found, Built found ∧ Alike found cd ∧
      (ctx.register cd).find (cd.setVersionIfNotSet ctx.version).id = some found := by
  obtain ⟨-, -, hfind⟩ := ctx.registerClassDefinition_spec cd
  rw [hfind]
  cases hfound : ctx.find (cd.setVersionIfNotSet ctx.version).id with
  | none =>
    refine ⟨cd.setVersionIfNotSet ctx.version, ?_, fun name => ?_, ?_⟩
    · rwa [Built, fields_setVersionIfNotSet]
    · rw [find_setVersionIfNotSet]
    · rw [firstLike, Option.none_or, find?_cons_of_pos (by simp [DefinitionId.Like])]
  | some found => exact ⟨found, hstored _ _ hfound, alike_of_isOk h (hstored _ _ hfound) hfound, rfl⟩

theorem alike_of_accepted {version : Int32} {before between : List ClassDefinition}
    (hbuilt : Built cd) (hbefore : ∀ d ∈ before, Built d)
    (hcd : ((before.foldl register (.empty version)).registerClassDefinition cd).isOk)
    (hcd' : (((before ++ cd :: between).foldl register
      (.empty version)).registerClassDefinition cd').isOk)
    (hid : (cd.setVersionIfNotSet version).id = (cd'.setVersionIfNotSet version).id) :
    Alike cd cd' := by
  rw [foldl_append, foldl_cons] at hcd'
  obtain ⟨hversion, hfind⟩ := registerAll_spec (.empty version) before
  generalize before.foldl register (.empty version) = ctx at *
  have hstored : ∀ id, ∀ d ∈ ctx.find id, Built d := by
    intro id d hd
    rw [hfind] at hd
    obtain ⟨d', hd', rfl⟩ := mem_map.mp (mem_of_find?_eq_some hd)
    rw [Built, fields_setVersionIfNotSet]
    exact hbefore d' hd'
  obtain ⟨found, hfound, halike, hkept⟩ := stored_of_accepted hstored hbuilt hcd
  obtain ⟨-, hversion₁, -⟩ := ctx.registerClassDefinition_spec cd
  obtain ⟨hversion₂, hfind₂⟩ := registerAll_spec (ctx.register cd) between
  have halike' : Alike found cd' := by
    refine alike_of_isOk hcd' hfound ?_
    rw [hversion] at hkept
    rw [hfind₂, hversion₂, hversion₁, hversion]
    exact congrArg (Option.or · _) ((congrArg _ hid.symm).trans hkept)
  exact fun name => (halike name).symm.trans (halike' name)

end Accepted

section Order

/-- The builder numbers the fields in the order in which they are added; here their names are
distinct. -/
structure Added (fields : List FieldDefinition) : Prop where
  nodup : (fields.map name).Nodup
  index : ∀ i (fd : FieldDefinition), fields[i]? = some fd → fd.index = i

theorem Added.index_find_iff {fields : List FieldDefinition} (h : Added fields)
    {factoryId classId v : Int32} {key : Name} {i : ℕ} :
    ((ClassDefinition.build factoryId classId v fields).find key).map FieldDefinition.index =
      some i ↔ (fields.map name)[i]? = some key := by
  have hbuild : ClassDefinition.build factoryId classId v fields =
      ⟨factoryId, classId, v, fields⟩ := by
    rw [ClassDefinition.build, foldl_addFieldDef]
    · rfl
    · rw [nil_append]
      exact h.nodup
  rw [hbuild, getElem?_map, Option.map_eq_some_iff, Option.map_eq_some_iff]
  constructor
  · rintro ⟨fd, hfind, rfl⟩
    obtain ⟨hmem, hname⟩ := mem_of_find hfind
    obtain ⟨j, hj⟩ := mem_iff_getElem?.mp hmem
    exact ⟨fd, h.index j fd hj ▸ hj, hname⟩
  · rintro ⟨fd, hget, rfl⟩
    exact ⟨fd, find_of_mem h.nodup (mem_of_getElem? hget), h.index i fd hget⟩

end Order

/-- Definitions that are accepted for one class and version are read alike if and only if
their fields have been added in the same order. -/
theorem accepted_readAlike_iff (version : Int32) (before between : List ClassDefinition)
    {factoryId classId v v' : Int32} {fields fields' : List FieldDefinition}
    (hfields : Added fields) (hfields' : Added fields') (hbefore : ∀ d ∈ before, Built d)
    (hcd : ((before.foldl register (.empty version)).registerClassDefinition
      (.build factoryId classId v fields)).isOk)
    (hcd' : (((before ++ .build factoryId classId v fields :: between).foldl register
      (.empty version)).registerClassDefinition (.build factoryId classId v' fields')).isOk)
    (hid : ((ClassDefinition.build factoryId classId v fields).setVersionIfNotSet version).id =
      ((ClassDefinition.build factoryId classId v' fields').setVersionIfNotSet version).id) :
    ReadAlike (.build factoryId classId v fields) (.build factoryId classId v' fields') ↔
      fields.map name = fields'.map name := by
  rw [readAlike_iff (alike_of_accepted ⟨fields, rfl⟩ hbefore hcd hcd' hid)]
  constructor
  · intro h
    refine ext_getElem? fun i => Option.ext fun key => ?_
    rw [← hfields.index_find_iff, ← hfields'.index_find_iff, h key]
  · intro h key
    refine Option.ext fun i => ?_
    rw [hfields.index_find_iff, hfields'.index_find_iff, h]

/-- A class with two fields of type `int`, in the given order. -/
def twoFields (first second : Name) : List FieldDefinition :=
  [⟨0, first, .int, 0, 0, 1⟩, ⟨1, second, .int, 0, 0, 1⟩]

/-- A record of the class with the fields `a` and `b`, with `a = 1` and `b = 2`. -/
def twoFieldsRecord : List UInt8 :=
  [0, 0, 0, 8, 0, 0, 0, 16, 0, 1, 97, 5, 0, 0, 0, 1, 0, 1, 98, 5, 0, 0, 0, 2]

/-- The field `a` of the record is read as `1` and, with the other order, as `2`. -/
theorem field_order_ignored :
    let cd := ClassDefinition.build 1 1 1 (twoFields [97] [98])
    let cd' := ClassDefinition.build 1 1 1 (twoFields [98] [97])
    let read cd := (⟨cd, 0, 0, true, false⟩ : Reader).readBase .big [97]
      (.single (.primitive (.numeric .int32))) twoFieldsRecord 0
    ((empty 0).registerClassDefinition cd).isOk ∧
      (((empty 0).register cd).registerClassDefinition cd').isOk ∧
      read cd = .ok (1, 16) ∧ read cd' = .ok (2, 24) := by
  decide

theorem added_twoFields {first second : Name} (h : first ≠ second) :
    Added (twoFields first second) where
  nodup := by simp [twoFields, h]
  index i fd hget := by
    match i, hget with
    | 0, rfl => rfl
    | 1, rfl => rfl

/-- A definition without a version gets the one of the context. The one that has it is read
alike, and the one with the other order is not. -/
theorem accepted_readAlike_iff_twoFields :
    ReadAlike (.build 1 1 (-1) (twoFields [97] [98])) (.build 1 1 1 (twoFields [97] [98])) ∧
      ¬ ReadAlike (.build 1 1 (-1) (twoFields [97] [98])) (.build 1 1 1 (twoFields [98] [97])) := by
  have hab : Added (twoFields [97] [98]) := added_twoFields (by decide)
  have hba : Added (twoFields [98] [97]) := added_twoFields (by decide)
  constructor
  · exact (accepted_readAlike_iff 1 [] [] hab hab nofun (by decide) (by decide) (by decide)).mpr rfl
  · rw [accepted_readAlike_iff 1 [] [] hab hba nofun (by decide) (by decide) (by decide)]
    decide

end HazelcastClient.Serialization.Portable
