import HazelcastClient.Interleaving.Automaton
import HazelcastClient.Serialization.Compact.Stream

/-!
# Array fields of generic records

A generic record gives an array of a primitive type both as `get_array_of_K` and as
`get_array_of_nullable_K`, whatever the kind of the field is. The accessors return references.
For the one that is not of the kind of the field, the array is converted, and the result is
kept in `adopteds_` from then on. A caller can change the array in `objects_`, or the
converted one, through a reference that is not `const`.

The field is compared and serialized as it is in `objects_`.
-/

namespace HazelcastClient.Serialization.GenericRecord

open Interleaving List Option Function

open Compact (Name Primitive)

/-- `exception_for_unexpected_null_value_in_array`: the exception with the arguments of its
message. -/
structure NullInArray where
  fieldName : Name
  methodSuffix : String
  deriving DecidableEq

/-- The exception that is thrown; `%2%` is `get`. -/
def NullInArray.exception (_ : NullInArray) : Exception :=
  ⟨.hazelcastSerialization, "",
    "Error while reading %1%. null value can not be read via %2%ArrayOf%3% " ++
      "methods. Use %2%ArrayOfNullable%3% instead."⟩

def methodSuffix : Primitive → String
  | .boolean => "boolean"
  | .numeric .int8 => "int8"
  | .numeric .int16 => "int16"
  | .numeric .int32 => "int32"
  | .numeric .int64 => "int64"
  | .numeric .float32 => "float32"
  | .numeric .float64 => "float64"

/-- A field with its entry of `objects_` and the one of `adopteds_`, if it has been made. -/
inductive ArrayField (T : Type) where
  | primitive (object : Option (List T)) (adopted : Option (Option (List (Option T))))
  | nullable (object : Option (List (Option T))) (adopted : Option (Option (List T)))

namespace ArrayField

variable {T : Type} {values : List (Option T)} {e : NullInArray} {f : ArrayField T}

/-- The loop that converts the array; it throws at the first null. -/
def withoutNulls (e : NullInArray) : List (Option T) → Except NullInArray (List T)
  | [] => .ok []
  | none :: _ => .error e
  | some v :: values => do
    let values ← withoutNulls e values
    .ok (v :: values)

/-- `get_array_of_primitive`; it makes no entry when it throws. -/
def getArrayOfPrimitive (e : NullInArray) :
    ArrayField T → Except NullInArray (Option (List T)) × ArrayField T
  | .primitive object adopted => (.ok object, .primitive object adopted)
  | .nullable object (some adopted) => (.ok adopted, .nullable object (some adopted))
  | .nullable none none => (.ok none, .nullable none (some none))
  | .nullable (some values) none =>
    match withoutNulls e values with
    | .error e => (.error e, .nullable (some values) none)
    | .ok array => (.ok (some array), .nullable (some values) (some (some array)))

def getArrayOfNullable : ArrayField T → Option (List (Option T)) × ArrayField T
  | .nullable object adopted => (object, .nullable object adopted)
  | .primitive object (some adopted) => (adopted, .primitive object (some adopted))
  | .primitive none none => (none, .primitive none (some none))
  | .primitive (some values) none =>
    (some (values.map some), .primitive (some values) (some (some (values.map some))))

/-- What `operator==` compares: the array of `objects_`, given here as one with nulls. -/
def content : ArrayField T → Option (List (Option T))
  | .primitive object _ => object.map (map some)
  | .nullable object _ => object

/-- What `write_generic_record` writes: the array that the accessor of the kind of the field
returns. -/
def serialized (e : NullInArray) (f : ArrayField T) :
    Except NullInArray (Option (List (Option T))) :=
  match f with
  | .primitive _ _ => do
    let array ← (f.getArrayOfPrimitive e).1
    .ok (array.map (map some))
  | .nullable _ _ => .ok f.getArrayOfNullable.1

/-- What a caller does. A value is stored through a reference that an accessor has returned,
so the array it refers to is there. -/
inductive Use (T : Type) where
  | getPrimitive
  | getNullable
  | storePrimitive (value : Option (List T))
  | storeNullable (value : Option (List (Option T)))

def use (e : NullInArray) (f : ArrayField T) : Use T → Option (ArrayField T)
  | .getPrimitive => some (f.getArrayOfPrimitive e).2
  | .getNullable => some f.getArrayOfNullable.2
  | .storePrimitive value =>
    match f with
    | .primitive _ adopted => some (.primitive value adopted)
    | .nullable object (some _) => some (.nullable object (some value))
    | .nullable _ none => none
  | .storeNullable value =>
    match f with
    | .nullable _ adopted => some (.nullable value adopted)
    | .primitive object (some _) => some (.primitive object (some value))
    | .primitive _ none => none

def HoldsNull (f : ArrayField T) : Prop := ∃ values, f.content = some values ∧ none ∈ values

/-- The accessors return the same array, and it is what is compared and written. -/
structure Agrees (e : NullInArray) (f : ArrayField T) : Prop where
  same : ¬ f.HoldsNull → ∃ array, (f.getArrayOfPrimitive e).1 = .ok array ∧
    f.getArrayOfNullable.1 = array.map (map some)
  throws_iff : (f.getArrayOfPrimitive e).1 = .error e ↔ f.HoldsNull
  compared : f.getArrayOfNullable.1 = f.content
  written : f.serialized e = .ok f.getArrayOfNullable.1

/-- The converted array, if there is one, is that of the field. -/
def Coherent : ArrayField T → Prop
  | .primitive _ none => True
  | .primitive object (some adopted) => adopted = object.map (map some)
  | .nullable _ none => True
  | .nullable object (some adopted) => adopted.map (map some) = object

/-- While there is a converted array, a caller changes neither of the two. -/
def Harmless (f : ArrayField T) : Use T → Prop
  | .getPrimitive => True
  | .getNullable => True
  | .storePrimitive value =>
    match f with
    | .primitive object (some _) => value = object
    | .nullable _ (some adopted) => value = adopted
    | _ => True
  | .storeNullable value =>
    match f with
    | .nullable object (some _) => value = object
    | .primitive _ (some adopted) => value = adopted
    | _ => True

theorem withoutNulls_map_some (e : NullInArray) (array : List T) :
    withoutNulls e (array.map some) = .ok array := by
  induction array with
  | nil => rfl
  | cons v array ih =>
    rw [map_cons, withoutNulls, ih]
    rfl

theorem withoutNulls_of_mem (e : NullInArray) (h : none ∈ values) :
    withoutNulls e values = .error e := by
  induction values with
  | nil => cases h
  | cons value values ih =>
    cases value with
    | none => rfl
    | some v =>
      have hmem : none ∈ values := by simpa using h
      rw [withoutNulls, ih hmem]
      rfl

theorem exists_map_some (h : none ∉ values) :
    ∃ array : List T, array.map some = values := by
  induction values with
  | nil => exact ⟨[], rfl⟩
  | cons value values ih =>
    rw [mem_cons, not_or] at h
    obtain ⟨v, rfl⟩ := ne_none_iff_exists'.mp (Ne.symm h.1)
    obtain ⟨array, harray⟩ := ih h.2
    exact ⟨v :: array, by rw [map_cons, harray]⟩

theorem map_some_injective : Function.Injective (Option.map (map (some : T → Option T))) :=
  map_injective (map_injective_iff.mpr (some_injective T))

/-! ## The two accessors -/

theorem not_holdsNull_primitive (object : Option (List T))
    (adopted : Option (Option (List (Option T)))) :
    ¬ (ArrayField.primitive object adopted).HoldsNull := by
  rintro ⟨values, hvalues, hmem⟩
  obtain ⟨array, -, rfl⟩ := map_eq_some_iff.mp hvalues
  simp at hmem

theorem agrees_of_ok (array : Option (List T))
    (hprimitive : (f.getArrayOfPrimitive e).1 = .ok array)
    (hnullable : f.getArrayOfNullable.1 = array.map (map some))
    (hcontent : f.content = array.map (map some)) : f.Agrees e := by
  have hno : ¬ f.HoldsNull := by
    rintro ⟨values, hvalues, hmem⟩
    exact not_holdsNull_primitive array none ⟨values, hcontent.symm.trans hvalues, hmem⟩
  refine ⟨fun _ => ⟨array, hprimitive, hnullable⟩, ?_, hnullable.trans hcontent.symm, ?_⟩
  · rw [hprimitive]
    exact iff_of_false (fun h => nomatch h) hno
  · cases f with
    | primitive object adopted =>
      rw [serialized, hprimitive, hnullable]
      rfl
    | nullable object adopted => rfl

theorem agrees_primitive {object : Option (List T)} {adopted : Option (Option (List (Option T)))}
    (h : (primitive object adopted).Coherent) :
    (primitive object adopted).Agrees e := by
  refine agrees_of_ok object rfl ?_ rfl
  cases adopted with
  | none => cases object <;> rfl
  | some adopted => exact h

theorem agrees_nullable {object : Option (List (Option T))} {adopted : Option (Option (List T))}
    (h : (nullable object adopted).Coherent) :
    (nullable object adopted).Agrees e := by
  cases adopted with
  | some adopted => exact agrees_of_ok adopted rfl (Eq.symm h) (Eq.symm h)
  | none =>
    cases object with
    | none => exact agrees_of_ok none rfl rfl rfl
    | some values =>
      by_cases hmem : none ∈ values
      · have hthrows : ((nullable (some values) none).getArrayOfPrimitive e).1 = .error e := by
          rw [getArrayOfPrimitive, withoutNulls_of_mem e hmem]
        have hnull : (nullable (some values) none).HoldsNull := ⟨values, rfl, hmem⟩
        exact ⟨fun hno => absurd hnull hno, iff_of_true hthrows hnull, rfl, rfl⟩
      · obtain ⟨array, rfl⟩ := exists_map_some hmem
        refine agrees_of_ok (some array) ?_ rfl rfl
        rw [getArrayOfPrimitive, withoutNulls_map_some]

/-- The accessors agree just when the converted array is that of the field. -/
theorem agrees_iff_coherent (e : NullInArray) (f : ArrayField T) : f.Agrees e ↔ f.Coherent := by
  constructor
  · intro h
    match f with
    | .primitive _ none => trivial
    | .primitive _ (some _) => exact h.compared
    | .nullable _ none => trivial
    | .nullable object (some adopted) =>
      have hno : ¬ (nullable object (some adopted)).HoldsNull := fun hnull =>
        nomatch h.throws_iff.mpr hnull
      obtain ⟨array, harray, heq⟩ := h.same hno
      cases harray
      exact heq.symm
  · intro h
    cases f with
    | primitive object adopted => exact agrees_primitive h
    | nullable object adopted => exact agrees_nullable h

theorem coherent_getArrayOfPrimitive (e : NullInArray) (h : f.Coherent) :
    (f.getArrayOfPrimitive e).2.Coherent := by
  match f with
  | .primitive _ _ => exact h
  | .nullable _ (some _) => exact h
  | .nullable none none => rfl
  | .nullable (some values) none =>
    by_cases hmem : none ∈ values
    · rw [getArrayOfPrimitive, withoutNulls_of_mem e hmem]
      exact h
    · obtain ⟨array, rfl⟩ := exists_map_some hmem
      rw [getArrayOfPrimitive, withoutNulls_map_some]
      rfl

theorem coherent_getArrayOfNullable (h : f.Coherent) :
    f.getArrayOfNullable.2.Coherent := by
  match f with
  | .nullable _ _ => exact h
  | .primitive _ (some _) => exact h
  | .primitive none none => rfl
  | .primitive (some _) none => rfl

/-- A use of a coherent field leaves it coherent just when it is harmless. -/
theorem coherent_use {f' : ArrayField T} {u : Use T} (h : f.Coherent) (huse : f.use e u = some f') :
    f'.Coherent ↔ f.Harmless u := by
  match f, u with
  | f, .getPrimitive =>
    cases huse
    exact iff_of_true (coherent_getArrayOfPrimitive e h) trivial
  | f, .getNullable =>
    cases huse
    exact iff_of_true (coherent_getArrayOfNullable h) trivial
  | .primitive object none, .storePrimitive value =>
    cases huse
    exact Iff.rfl
  | .primitive object (some adopted), .storePrimitive value =>
    cases huse
    have hadopted : adopted = object.map (map some) := h
    rw [Coherent, Harmless, hadopted]
    exact ⟨fun heq => (map_some_injective heq).symm, fun heq => by rw [heq]⟩
  | .nullable object (some adopted), .storePrimitive value =>
    cases huse
    have hadopted : adopted.map (map some) = object := h
    rw [Coherent, Harmless, ← hadopted]
    exact map_some_injective.eq_iff
  | .nullable object none, .storeNullable value =>
    cases huse
    exact Iff.rfl
  | .nullable object (some adopted), .storeNullable value =>
    cases huse
    have hadopted : adopted.map (map some) = object := h
    rw [Coherent, Harmless, ← hadopted]
    exact eq_comm
  | .primitive object (some adopted), .storeNullable value =>
    cases huse
    have hadopted : adopted = object.map (map some) := h
    rw [Coherent, Harmless, hadopted]

end ArrayField

open ArrayField (agrees_iff_coherent)

/-! ## Records -/

structure ArrayRecord where
  fields : Name → Option (Σ p : Primitive, ArrayField p.Val)

namespace ArrayRecord

structure Use where
  fieldName : Name
  type : Primitive
  use : ArrayField.Use type.Val

def nullInArray (fieldName : Name) (type : Primitive) : NullInArray :=
  ⟨fieldName, methodSuffix type⟩

/-- The field after a use. The accessors throw for a name that there is not, and for a field
of another type. -/
def useField (r : ArrayRecord) (u : Use) : Option (ArrayField u.type.Val) :=
  (r.fields u.fieldName).bind fun field =>
    if h : field.1 = u.type then (h ▸ field.2).use (nullInArray u.fieldName u.type) u.use
    else none

def step (r : ArrayRecord) (u : Use) : Option ArrayRecord :=
  (r.useField u).map fun f => ⟨Function.update r.fields u.fieldName (some ⟨u.type, f⟩)⟩

/-- Nothing has been converted yet. -/
def Fresh (r : ArrayRecord) : Prop :=
  ∀ name p f, r.fields name = some ⟨p, f⟩ →
    (∃ object, f = .primitive object none) ∨ ∃ object, f = .nullable object none

def Agrees (r : ArrayRecord) : Prop :=
  ∀ name p f, r.fields name = some ⟨p, f⟩ → f.Agrees (nullInArray name p)

def Harmless (r : ArrayRecord) (u : Use) : Prop :=
  ∀ f, r.fields u.fieldName = some ⟨u.type, f⟩ → f.Harmless u.use

variable {r : ArrayRecord} {r' : ArrayRecord}

theorem step_eq_some {u : Use} (h : r.step u = some r') :
    ∃ f f', r.fields u.fieldName = some ⟨u.type, f⟩ ∧
      f.use (nullInArray u.fieldName u.type) u.use = some f' ∧
      r' = ⟨Function.update r.fields u.fieldName (some ⟨u.type, f'⟩)⟩ := by
  obtain ⟨f', hf', rfl⟩ := map_eq_some_iff.mp h
  obtain ⟨⟨p, f⟩, hfield, huse⟩ := bind_eq_some_iff.mp hf'
  split at huse
  · rename_i hp
    obtain ⟨name, type, use⟩ := u
    dsimp only at hp huse
    subst hp
    exact ⟨f, f', hfield, huse, rfl⟩
  · cases huse

theorem Fresh.agrees (h : r.Fresh) : r.Agrees := by
  intro name p f hf
  rw [agrees_iff_coherent]
  rcases h name p f hf with ⟨object, rfl⟩ | ⟨object, rfl⟩
  · trivial
  · trivial

theorem agrees_step {u : Use} (h : r.Agrees) (hstep : r.step u = some r') :
    r'.Agrees ↔ r.Harmless u := by
  obtain ⟨f, f', hf, huse, rfl⟩ := step_eq_some hstep
  have hcoherent := ArrayField.coherent_use
    ((agrees_iff_coherent _ f).mp (h _ _ f hf)) huse
  constructor
  · intro h' g hg
    rw [hf] at hg
    cases hg
    have hagrees := h' u.fieldName u.type f' (update_self _ _ _)
    exact hcoherent.mp ((agrees_iff_coherent _ f').mp hagrees)
  · intro hharmless name p g hg
    by_cases hname : name = u.fieldName
    · subst hname
      dsimp only at hg
      rw [update_self] at hg
      cases hg
      rw [agrees_iff_coherent, hcoherent]
      exact hharmless f hf
    · dsimp only at hg
      rw [update_of_ne hname] at hg
      exact h name p g hg

/-- As long as no caller changes an array that has been converted, the accessors agree, and
the first such change makes them differ. -/
theorem agrees_of_harmless {r r' : ArrayRecord} (hfresh : r.Fresh)
    (h : Reaches step Harmless r r') :
    r'.Agrees ∧ ∀ u r'', r'.step u = some r'' → (r''.Agrees ↔ r'.Harmless u) := by
  have hagrees : r'.Agrees := h.invariant hfresh.agrees fun hr hok hs => (agrees_step hr hs).mpr hok
  exact ⟨hagrees, fun u r'' hs => agrees_step hagrees hs⟩

def sample : ArrayRecord where
  fields name := if name = [97] then some ⟨.boolean, .nullable (some [some true]) none⟩ else none

def sampleUse (use : ArrayField.Use Bool) : Use := ⟨[97], .boolean, use⟩

theorem sample_fresh : sample.Fresh := by
  intro name p f hf
  simp only [sample] at hf
  split at hf
  · cases hf
    exact .inr ⟨_, rfl⟩
  · cases hf

def sampleWith (r : ArrayRecord) (object : List (Option Bool))
    (adopted : Option (Option (List Bool))) : ArrayRecord :=
  ⟨Function.update r.fields [97] (some ⟨.boolean, .nullable (some object) adopted⟩)⟩

theorem agrees_of_harmless_sample :
    ∃ r, Reaches step Harmless sample r ∧ r.Agrees ∧
      r.fields [97] = some ⟨.boolean, .nullable (some [some false]) (some (some [false]))⟩ := by
  have hstore : sample.step (sampleUse (.storeNullable (some [some false]))) =
      some (sample.sampleWith [some false] none) := rfl
  have hget : (sample.sampleWith [some false] none).step (sampleUse .getPrimitive) =
      some ((sample.sampleWith [some false] none).sampleWith [some false] (some (some [false]))) :=
    rfl
  have hharmless : sample.Harmless (sampleUse (.storeNullable (some [some false]))) := by
    intro f hf
    cases hf
    trivial
  have hharmless' : (sample.sampleWith [some false] none).Harmless (sampleUse .getPrimitive) :=
    fun _ _ => trivial
  have h : Reaches step Harmless sample _ :=
    .tail (.tail .refl hharmless hstore) hharmless' hget
  exact ⟨_, h, (agrees_of_harmless sample_fresh h).1, rfl⟩

/-- A null that is stored after the array has been converted is not seen by
`get_array_of_boolean`, which goes on returning the converted array. -/
theorem null_not_seen :
    ∃ r, Reaches step (fun _ _ => True) sample r ∧ ¬ r.Agrees ∧
      r.fields [97] = some ⟨.boolean, .nullable (some [none]) (some (some [true]))⟩ := by
  have hget : sample.step (sampleUse .getPrimitive) =
      some (sample.sampleWith [some true] (some (some [true]))) := rfl
  have hstore : (sample.sampleWith [some true] (some (some [true]))).step
      (sampleUse (.storeNullable (some [none]))) =
      some ((sample.sampleWith [some true] (some (some [true]))).sampleWith [none]
        (some (some [true]))) := rfl
  refine ⟨_, .tail (.tail .refl trivial hget) trivial hstore, fun hagrees => ?_, rfl⟩
  have hfield := hagrees [97] .boolean _ rfl
  rw [agrees_iff_coherent] at hfield
  exact absurd hfield (by simp [ArrayField.Coherent])

end ArrayRecord

end HazelcastClient.Serialization.GenericRecord
