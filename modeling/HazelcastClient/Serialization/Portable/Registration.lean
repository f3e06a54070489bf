import HazelcastClient.Serialization.Portable.Writer
import HazelcastClient.Serialization.Portable.Schema

/-!
# Classes that are registered by writing

The first write of an instance of a class registers its definition, if the instance has no
null pointers and no empty arrays of portables. The definitions that the context has by then
stay.
-/

namespace HazelcastClient.Serialization.Portable

open List ClassDefinition

open Compact (Name)

variable {Ty : Type} (cls : Ty → Class Ty)

/-- What the classes must be like: the ids and the version lead to one definition, no class id
is zero, and the versions are set. -/
structure Registrable (version : Int32) : Prop where
  unambiguous : ∀ t u, (cls t).factoryId = (cls u).factoryId →
    combineToLong (cls t).classId ((cls t).getVersion version) =
      combineToLong (cls u).classId ((cls u).getVersion version) →
    definition cls (fun t => (cls t).getVersion version) t =
      definition cls (fun t => (cls t).getVersion version) u
  classId : ∀ t, (cls t).classId ≠ 0
  version : ∀ t, 0 ≤ (cls t).getVersion version ∨ (cls t).getVersion version = version

/-- The context has no other definitions for the classes than their own. -/
def Coherent (ctx : Context) : Prop :=
  ∀ t, ctx.lookup (cls t).factoryId (cls t).classId (versionIn cls ctx t) = none ∨
    ctx.lookup (cls t).factoryId (cls t).classId (versionIn cls ctx t) =
      some (definition cls (versionIn cls ctx) t)

/-- Definitions are only added. -/
def Grows (ctx ctx' : Context) : Prop :=
  ctx'.version = ctx.version ∧
    ∀ factoryId key cd, ctx.definitions factoryId key = some cd →
      ctx'.definitions factoryId key = some cd

variable {R : Ty → Type}

def Kind.Full (nested : (t : Ty) → R t → Prop) : (k : Kind Ty) → k.Val R → Prop
  | .simple _, _ => True
  | .portable _ _, none => False
  | .portable t _, some r => nested t r
  | .portableArray _, none => False
  | .portableArray _, some [] => False
  | .portableArray t, some (r :: _) => nested t r

def Values.Full (nested : (t : Ty) → R t → Prop) :
    (fields : List (Name × Kind Ty)) → Values R fields → Prop
  | [], _ => True
  | (_, k) :: fields, (v, values) => k.Full nested v ∧ Values.Full nested fields values

def Nested.Full : (n : ℕ) → (t : Ty) → Nested cls n t → Prop
  | 0, _, r => Empty.elim r
  | n + 1, t, o => Values.Full (Nested.Full n) (cls t).fields o.values

variable {cls}

theorem Grows.refl (ctx : Context) : Grows ctx ctx := ⟨rfl, fun _ _ _ h => h⟩

variable {ctx ctx' : Context} (order : ByteOrder)

theorem Grows.trans {ctx'' : Context} (h : Grows ctx ctx') (h' : Grows ctx' ctx'') :
    Grows ctx ctx'' :=
  ⟨h'.1.trans h.1, fun f key cd hcd => h'.2 f key cd (h.2 f key cd hcd)⟩

theorem versionIn_congr (h : ctx'.version = ctx.version) :
    versionIn cls ctx' = versionIn cls ctx := by
  funext u
  rw [versionIn, versionIn, h]

/-- The operation gives the definition of the class, and the context has it afterwards. -/
def Registers (cls : Ty → Class Ty) (t : Ty) (ctx : Context)
    (res : Result (ClassDefinition × Context)) : Prop :=
  ∃ ctx', res = .ok (definition cls (versionIn cls ctx) t, ctx') ∧ Coherent cls ctx' ∧
    Grows ctx ctx' ∧ ctx'.lookup (cls t).factoryId (cls t).classId (versionIn cls ctx t) =
      some (definition cls (versionIn cls ctx) t)

theorem registers_registerClassDefinition (hclasses : Registrable cls ctx.version)
    (hcoherent : Coherent cls ctx) (t : Ty) :
    Registers cls t ctx (ctx.registerClassDefinition (definition cls (versionIn cls ctx) t)) := by
  obtain ⟨ctx', hok, hversion, -, hdefinitions⟩ := registerClassDefinition_ok
    (definition_nodup (versionIn cls ctx) t) (hclasses.version t) (hcoherent t)
  have hown : ctx'.lookup (cls t).factoryId (cls t).classId (versionIn cls ctx t) =
      some (definition cls (versionIn cls ctx) t) := by
    rw [Context.lookup, hdefinitions]
    exact if_pos ⟨rfl, rfl⟩
  refine ⟨ctx', hok, ?_, ⟨hversion, ?_⟩, hown⟩
  · intro u
    rw [versionIn_congr hversion, Context.lookup, hdefinitions]
    split
    · rename_i hkey
      have heq : definition cls (versionIn cls ctx) t = definition cls (versionIn cls ctx) u :=
        hclasses.unambiguous t u hkey.1.symm hkey.2.symm
      exact .inr (congrArg some heq)
    · exact hcoherent u
  · intro f key cd hcd
    rw [hdefinitions]
    split
    · rename_i hkey
      rw [hkey.1, hkey.2] at hcd
      rcases hcoherent t with hnone | hsome
      · cases hnone.symm.trans hcd
      · exact hsome.symm.trans hcd
    · exact hcd

section Fields

variable {nested : Writing R} {full : (t : Ty) → R t → Prop} {v : Int32}

/-- Nested objects without nulls have their classes registered. -/
def DefinesNested (cls : Ty → Class Ty) (v : Int32) (nested : Writing R)
    (full : (t : Ty) → R t → Prop) : Prop :=
  ∀ (t : Ty) (r : R t) (ctx : Context), ctx.version = v → Coherent cls ctx → full t r →
    Registers cls t ctx (nested.define r ctx)

section

variable (hclasses : Registrable cls v) (hnested : DefinesNested cls v nested full) (own : Int32)
  (hversion : ctx.version = v) (hcoherent : Coherent cls ctx)

include hclasses hnested hversion hcoherent

theorem defineNested_full {t : Ty} {r : R t} (hfull : full t r) (name : Name) (type : FieldType)
    (defs : List FieldDefinition) :
    ∃ ctx', (do
        let (cd, ctx) ← nested.define r ctx
        let defs ← addPortableField defs name type cd
        .ok (defs, ctx)) = .ok (defs ++ [⟨defs.length, name, type, (cls t).factoryId,
          (cls t).classId, versionIn cls ctx t⟩], ctx') ∧
      Coherent cls ctx' ∧ Grows ctx ctx' := by
  obtain ⟨ctx', hok, hcoherent', hgrows, -⟩ := hnested t r ctx hversion hcoherent hfull
  refine ⟨ctx', ?_, hcoherent', hgrows⟩
  have hadd : addPortableField defs name type (definition cls (versionIn cls ctx) t) = .ok _ :=
    if_neg (hclasses.classId t)
  rw [hok]
  change addPortableField defs name type (definition cls (versionIn cls ctx) t) >>= _ = _
  rw [hadd]
  rfl

theorem defineField_full (name : Name) {k : Kind Ty} {value : k.Val R} (hfull : k.Full full value)
    (defs : List FieldDefinition) :
    ∃ ctx', defineField cls nested own name k value defs ctx =
        .ok (defs ++ [fieldDefinition cls (versionIn cls ctx) own defs.length (name, k)], ctx') ∧
      Coherent cls ctx' ∧ Grows ctx ctx' := by
  cases k with
  | simple s =>
    refine ⟨ctx, ?_, hcoherent, Grows.refl ctx⟩
    have hadd : addField defs ⟨defs.length, name, s.fieldType, 0, 0, own⟩ =
        .ok (defs ++ [⟨defs.length, name, s.fieldType, 0, 0, own⟩]) := if_pos rfl
    rw [defineField, hadd]
    rfl
  | portable t style =>
    cases value with
    | none => cases hfull
    | some r =>
      exact defineNested_full hclasses hnested hversion hcoherent hfull name .portable defs
  | portableArray t =>
    cases value with
    | none => cases hfull
    | some rs =>
      cases rs with
      | nil => cases hfull
      | cons r rs =>
        exact defineNested_full hclasses hnested hversion hcoherent hfull name .portableArray defs

/-- The calls at a `ClassDefinitionWriter` give the definitions of the fields. -/
theorem defineFields_full {fields : List (Name × Kind Ty)} {values : Values R fields}
    (hfull : Values.Full full fields values) (defs : List FieldDefinition) :
    ∃ ctx', defineFields cls nested own fields values defs ctx =
        .ok (defs ++ fieldDefinitions cls (versionIn cls ctx) own defs.length fields, ctx') ∧
      Coherent cls ctx' ∧ Grows ctx ctx' := by
  induction fields generalizing defs ctx with
  | nil =>
    refine ⟨ctx, ?_, hcoherent, Grows.refl ctx⟩
    rw [fieldDefinitions, append_nil]
    rfl
  | cons field fields ih =>
    obtain ⟨name, k⟩ := field
    obtain ⟨value, values⟩ := values
    obtain ⟨hvalue, hrest⟩ := hfull
    obtain ⟨ctx', hok, hcoherent', hgrows⟩ :=
      defineField_full hclasses hnested own hversion hcoherent name hvalue defs
    obtain ⟨ctx'', hok', hcoherent'', hgrows'⟩ :=
      ih (hgrows.1.trans hversion) hcoherent' hrest
        (defs ++ [fieldDefinition cls (versionIn cls ctx) own defs.length (name, k)])
    refine ⟨ctx'', ?_, hcoherent'', hgrows.trans hgrows'⟩
    rw [versionIn_congr hgrows.1, append_assoc, length_append, length_singleton] at hok'
    rw [defineFields, hok]
    exact hok'

theorem registers_defineObject {t : Ty} {o : Obj cls R t}
    (hfull : Values.Full full (cls t).fields o.values) :
    Registers cls t ctx (defineObject cls nested o ctx) := by
  obtain ⟨ctx', hok, hcoherent', hgrows⟩ :=
    defineFields_full hclasses hnested (versionIn cls ctx t) hversion hcoherent hfull []
  have hbuild : build (cls t).factoryId (cls t).classId (versionIn cls ctx t)
      (definition cls (versionIn cls ctx) t).fields = definition cls (versionIn cls ctx) t := by
    rw [build, foldl_addFieldDef]
    · rfl
    · rw [nil_append]
      exact definition_nodup (versionIn cls ctx) t
  have hclasses' : Registrable cls ctx'.version := by
    rw [hgrows.1, hversion]
    exact hclasses
  obtain ⟨ctx'', hok', hcoherent'', hgrows', hlookup⟩ :=
    registers_registerClassDefinition hclasses' hcoherent' t
  rw [versionIn_congr hgrows.1] at hok' hlookup
  refine ⟨ctx'', ?_, hcoherent'', hgrows.trans hgrows', hlookup⟩
  have hfields : defineFields cls nested ((cls t).getVersion ctx.version) (cls t).fields o.values []
      ctx = .ok ((definition cls (versionIn cls ctx) t).fields, ctx') := hok
  unfold defineObject
  dsimp only
  rw [hfields]
  change ctx'.registerClassDefinition (build (cls t).factoryId (cls t).classId
    (versionIn cls ctx t) (definition cls (versionIn cls ctx) t).fields) = _
  rw [hbuild, hok']

end

end Fields

theorem definesNested {v : Int32} (hclasses : Registrable cls v) (n : ℕ) :
    DefinesNested cls v (writing order cls n) (Nested.Full cls n) := by
  induction n with
  | zero =>
    intro t r
    exact Empty.elim r
  | succ n ih =>
    intro t o ctx hversion hcoherent hfull
    exact registers_defineObject hclasses ih hversion hcoherent hfull

/-- The first thing that a write of an instance without nulls does: the context has the
definition of the class afterwards. -/
theorem registers_lookupOrRegister (hclasses : Registrable cls ctx.version)
    (hcoherent : Coherent cls ctx) {n : ℕ} {t : Ty} {o : Nested cls n t}
    (hfull : Nested.Full cls n t o) :
    Registers cls t ctx (lookupOrRegister cls (writing order cls n) o ctx) := by
  unfold lookupOrRegister
  rcases hcoherent t with hnone | hsome
  · rw [versionIn] at hnone
    rw [hnone]
    exact definesNested order hclasses n t o ctx rfl hcoherent hfull
  · rw [versionIn] at hsome
    rw [hsome]
    exact ⟨ctx, rfl, hcoherent, Grows.refl ctx, hsome⟩

def WrittenBefore (order : ByteOrder) (cls : Ty → Class Ty) (ctx : Context) (t : Ty) : Prop :=
  ∃ (n : ℕ) (o : Nested cls n t) (before after : Context) (cd : ClassDefinition),
    Nested.Full cls n t o ∧ before.version = ctx.version ∧ Coherent cls before ∧
      lookupOrRegister cls (writing order cls n) o before = .ok (cd, after) ∧ Grows after ctx

/-- A context has the definitions of the classes of which instances without nulls were
written. -/
theorem defines_of_writtenBefore {order : ByteOrder} (hclasses : Registrable cls ctx.version)
    (h : ∀ t, WrittenBefore order cls ctx t) :
    Defines cls ctx := by
  intro t
  obtain ⟨n, o, before, after, cd, hfull, hversion, hcoherent, hregister, hgrows⟩ := h t
  rw [← hversion] at hclasses
  obtain ⟨ctx', hok, -, -, hlookup⟩ :=
    registers_lookupOrRegister order hclasses hcoherent hfull
  obtain ⟨-, rfl⟩ := Prod.mk.inj (Except.ok.inj (hok.symm.trans hregister))
  rw [versionIn_congr hversion.symm]
  exact hgrows.2 _ _ _ hlookup

/-- A letter, and an envelope around one. -/
def mailClass : Bool → Class Bool
  | false => ⟨1, 1, none, [([99], .simple .char16)], none, by decide, by decide⟩
  | true => ⟨1, 2, none, [([112], .portable false .passPointer)], none, by decide, by decide⟩

/-- An envelope is written to a new context, and then a letter. -/
theorem defines_of_writtenBefore_mail :
    ∃ ctx, (∀ t, WrittenBefore .big mailClass ctx t) ∧ Defines mailClass ctx := by
  have hclasses : Registrable mailClass 0 := by
    refine ⟨fun t u _ hid => ?_, by decide, by decide⟩
    obtain rfl : t = u := by
      revert hid
      revert t u
      decide
    rfl
  have hempty : Coherent mailClass (.empty 0) := fun _ => .inl rfl
  let letter : Nested mailClass 1 false := ⟨(65, ()), ()⟩
  let envelope : Nested mailClass 2 true := ⟨(some letter, ()), ()⟩
  have hletter : Nested.Full mailClass 1 false letter := ⟨trivial, trivial⟩
  have henvelope : Nested.Full mailClass 2 true envelope := ⟨hletter, trivial⟩
  obtain ⟨ctx₁, hok₁, hcoherent, hgrows₁, -⟩ :=
    registers_lookupOrRegister .big hclasses hempty henvelope
  obtain ⟨ctx₂, hok₂, -, hgrows₂, -⟩ :=
    registers_lookupOrRegister .big (hgrows₁.1 ▸ hclasses) hcoherent hletter
  have hgrows := hgrows₁.trans hgrows₂
  have hbefore : ∀ t, WrittenBefore .big mailClass ctx₂ t := by
    intro t
    cases t with
    | false => exact ⟨1, letter, _, ctx₂, _, hletter, hgrows₂.1.symm, hcoherent, hok₂, .refl _⟩
    | true => exact ⟨2, envelope, _, ctx₁, _, henvelope, hgrows.1.symm, hempty, hok₁, hgrows₂⟩
  exact ⟨ctx₂, hbefore, defines_of_writtenBefore (hgrows.1 ▸ hclasses) hbefore⟩

end HazelcastClient.Serialization.Portable
