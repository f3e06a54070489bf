import HazelcastClient.Serialization.Portable.RoundTrip

/-!
# How much is written for a nested portable

`write_portable` writes a nested object twice. The objects in it are then written four times,
and so on: what a writer appends grows with a power of two of the depth. Nothing is assumed
about the definitions in the context here.
-/

namespace HazelcastClient.Serialization.Portable

open Compact (Name Output)

open RandomAccess List Except Writer

theorem ofStream_eq_ok {T : Type} {r : Compact.Result T} {v : T} (h : ofStream r = .ok v) :
    r = .ok v := by
  cases r with
  | error e => cases h
  | ok a =>
    cases h
    rfl

theorem length_le_overwrite {α : Type} (data part : List α) (pos : ℕ) :
    data.length ≤ (overwrite data pos part).length := by
  simp only [overwrite, length_append, length_take, length_drop]
  omega

section Lengths

variable {order : ByteOrder} {w w' : Writer}

theorem le_writePosition {index : ℕ} (h : w.writePosition order index = .ok w') :
    w.out.length ≤ w'.out.length := by
  obtain ⟨pos, -, h⟩ := bind_eq_ok h
  obtain ⟨out, hout, h⟩ := bind_eq_ok h
  obtain ⟨-, -, hput⟩ := bind_eq_ok (ofStream_eq_ok hout)
  cases hput
  cases h
  exact length_le_overwrite _ _ _

theorem le_setPosition {name : Name} {type : FieldType} {fd : FieldDefinition}
    (h : w.setPosition order name type = .ok (fd, w')) :
    w.out.length + (2 + name.length + 1) ≤ w'.out.length := by
  unfold setPosition at h
  split at h
  · cases h
  · obtain ⟨fd', -, h⟩ := bind_eq_ok h
    split at h
    · cases h
    · obtain ⟨w₁, hposition, h⟩ := bind_eq_ok h
      have hle := le_writePosition hposition
      cases h
      rw [length_append, fieldHeader_length]
      omega

theorem le_writeSimple {s : Simple} {v : s.Val} {out out' : Output}
    (h : writeSimple order s v out = .ok out') : out.length ≤ out'.length := by
  rcases appends_writeSimple order s v out with hok | ⟨-, e, herr⟩
  · rw [hok] at h
    cases h
    rw [length_append]
    omega
  · rw [herr] at h
    cases h

theorem le_writeRaw {ss : List Simple} {values : RawValues ss}
    (h : writeRaw order ss values w = .ok w') : w.out.length ≤ w'.out.length := by
  induction ss generalizing w with
  | nil =>
    cases h
    exact Nat.le_refl _
  | cons s ss ih =>
    obtain ⟨v, values⟩ := values
    obtain ⟨out, hout, h⟩ := bind_eq_ok h
    exact (le_writeSimple (ofStream_eq_ok hout)).trans (ih h)

theorem le_writeRawData {raw : Option (List Simple)} {values : RawValues (raw.getD [])}
    (h : w.writeRawData order raw values = .ok w') : w.out.length ≤ w'.out.length := by
  cases raw with
  | none =>
    cases h
    exact Nat.le_refl _
  | some ss =>
    obtain ⟨w₁, houtput, h⟩ := bind_eq_ok h
    refine Nat.le_trans ?_ (le_writeRaw h)
    unfold getRawDataOutput at houtput
    split at houtput
    · cases houtput
      exact Nat.le_refl _
    · obtain ⟨w₂, hposition, houtput⟩ := bind_eq_ok houtput
      have hle := le_writePosition hposition
      cases houtput
      exact hle

end Lengths

/-! ## Weights -/

section Weights

variable {Ty : Type} {R : Ty → Type} (weight : (t : Ty) → R t → ℕ)

/-- What is written at least for the value of a field, when `weight` is written for an
object. -/
def fieldWeight : (k : Kind Ty) → k.Val R → ℕ
  | .portable t _, some r => 2 * weight t r
  | .portableArray t, some rs => (rs.map (weight t)).sum
  | _, _ => 0

def valuesWeight : (fields : List (Name × Kind Ty)) → Values R fields → ℕ
  | [], _ => 0
  | (_, k) :: fields, (v, values) => fieldWeight weight k v + valuesWeight fields values

/-- At least `weight r` bytes are appended for an object `r`. -/
def AppendsAtLeast (nested : Writing R) : Prop :=
  ∀ {t : Ty} (r : R t) (cd : ClassDefinition) (ctx : Context) (out : Output)
    {out' : Output} {ctx' : Context}, nested.writeWith r cd ctx out = .ok (out', ctx') →
      out.length + weight t r ≤ out'.length

variable {weight} {order : ByteOrder} {cls : Ty → Class Ty} {nested : Writing R}
  (hnested : AppendsAtLeast weight nested) {w w' : Writer} {name : Name} {cd : ClassDefinition}

include hnested

theorem le_writeInternal {t : Ty} {r : R t} (h : w.writeInternal cls nested r = .ok w') :
    w.out.length + weight t r ≤ w'.out.length := by
  obtain ⟨⟨cd, ctx⟩, -, h⟩ := bind_eq_ok h
  obtain ⟨⟨out, ctx'⟩, hwrite, h⟩ := bind_eq_ok h
  cases h
  exact hnested r cd ctx w.out hwrite

section

variable {t : Ty} {r : R t} (h : w.writePortable order cls nested name (some r) = .ok w')

include h

theorem writePortable_parts :
    ∃ fd w₁ w₂, w.setPosition order name .portable = .ok (fd, w₁) ∧
      (w₁.append (0 :: ids order cls t)).writeInternal cls nested r = .ok w₂ ∧
      w₂.out.length + 8 + weight t r ≤ w'.out.length := by
  obtain ⟨⟨fd, w₁⟩, hposition, h⟩ := bind_eq_ok h
  obtain ⟨-, -, h⟩ := bind_eq_ok h
  obtain ⟨w₂, hfirst, hsecond⟩ := bind_eq_ok h
  refine ⟨fd, w₁, w₂, hposition, hfirst, ?_⟩
  have hle := le_writeInternal hnested hsecond
  rwa [append, length_append, ids_length] at hle

theorem le_writePortable : w.out.length + 2 * weight t r ≤ w'.out.length := by
  obtain ⟨fd, w₁, w₂, hposition, hfirst, hle⟩ := writePortable_parts hnested h
  have hheader := le_setPosition hposition
  have hobject := le_writeInternal hnested hfirst
  rw [append, length_append] at hobject
  omega

end

theorem le_writeElements {t : Ty} {index : ℕ} {rs : List (R t)}
    (h : writeElements order nested cd index rs w = .ok w') :
    w.out.length + (rs.map (weight t)).sum ≤ w'.out.length := by
  induction rs generalizing index w with
  | nil =>
    cases h
    exact Nat.le_refl _
  | cons r rs ih =>
    obtain ⟨w₁, hposition, h⟩ := bind_eq_ok h
    obtain ⟨⟨out, ctx⟩, hwrite, h⟩ := bind_eq_ok h
    have hle := le_writePosition hposition
    have hobject := hnested r cd w₁.context w₁.out hwrite
    have hrest := ih h
    rw [map_cons, sum_cons]
    dsimp only at hrest
    omega

theorem le_writePortableArray {t : Ty} {values : Option (List (R t))}
    (h : w.writePortableArray order cls nested name t values = .ok w') :
    w.out.length + fieldWeight weight (.portableArray t) values ≤ w'.out.length := by
  obtain ⟨⟨fd, w₁⟩, hposition, h⟩ := bind_eq_ok h
  obtain ⟨-, -, h⟩ := bind_eq_ok h
  have hheader := le_setPosition hposition
  split at h
  · cases h
    rw [append, length_append]
    simp only [fieldWeight]
    omega
  · cases h
    rw [append, length_append]
    simp only [fieldWeight, map_nil, sum_nil]
    omega
  · rename_i r rs
    obtain ⟨len, -, h⟩ := bind_eq_ok h
    obtain ⟨⟨cd, ctx⟩, -, h⟩ := bind_eq_ok h
    have helements := le_writeElements hnested h
    simp only [append, length_append] at helements
    simp only [fieldWeight]
    omega

theorem le_writeField {k : Kind Ty} {v : k.Val R}
    (h : w.writeField order cls nested name k v = .ok w') :
    w.out.length + fieldWeight weight k v ≤ w'.out.length := by
  unfold writeField at h
  split at h
  · obtain ⟨⟨fd, w₁⟩, hposition, h⟩ := bind_eq_ok h
    obtain ⟨out, hout, h⟩ := bind_eq_ok h
    have hheader := le_setPosition hposition
    have hvalue := le_writeSimple (ofStream_eq_ok hout)
    cases h
    simp only [fieldWeight]
    omega
  · obtain ⟨⟨fd, w₁⟩, hposition, h⟩ := bind_eq_ok h
    have hheader := le_setPosition hposition
    cases h
    rw [append, length_append]
    simp only [fieldWeight]
    omega
  · rename_i t style value hnot
    cases value with
    | none =>
      obtain ⟨⟨fd, w₁⟩, -, h⟩ := bind_eq_ok h
      cases h
    | some r => exact le_writePortable hnested h
  · exact le_writePortableArray hnested h

theorem le_writeFields {fields : List (Name × Kind Ty)} {values : Values R fields}
    (h : writeFields order cls nested fields values w = .ok w') :
    w.out.length + valuesWeight weight fields values ≤ w'.out.length := by
  induction fields generalizing w with
  | nil =>
    cases h
    exact Nat.le_refl _
  | cons field fields ih =>
    obtain ⟨name, k⟩ := field
    obtain ⟨v, values⟩ := values
    obtain ⟨w₁, hfield, h⟩ := bind_eq_ok h
    have hle := le_writeField hnested hfield
    have hrest := ih h
    simp only [valuesWeight]
    omega

/-- A version, the final position, the number of fields and the entry for the raw data. -/
theorem le_writeObject {t : Ty} {o : Obj cls R t} {ctx ctx' : Context} {out out' : Output}
    (h : writeObject order cls nested o cd ctx out = .ok (out', ctx')) :
    out.length + (16 + valuesWeight weight (cls t).fields o.values) ≤ out'.length := by
  obtain ⟨w₁, hfields, h⟩ := bind_eq_ok h
  obtain ⟨w₂, hraw, h⟩ := bind_eq_ok h
  obtain ⟨w₃, hposition, h⟩ := bind_eq_ok h
  have hle₁ := le_writeFields hnested hfields
  have hle₂ := le_writeRawData hraw
  have hle₃ := le_writePosition hposition
  cases h
  simp only [new, length_append, storeInt32_length, length_replicate] at hle₁
  omega

end Weights

section Trees

variable {Ty : Type} (cls : Ty → Class Ty)

/-- What is written at least for an object of `n` levels. -/
def nestedWeight : (n : ℕ) → (t : Ty) → Nested cls n t → ℕ
  | 0, _, r => Empty.elim r
  | n + 1, t, o => 16 + valuesWeight (nestedWeight n) (cls t).fields o.values

theorem appendsAtLeast_writing (order : ByteOrder) (n : ℕ) :
    AppendsAtLeast (nestedWeight cls n) (writing order cls n) := by
  induction n with
  | zero => exact fun r => Empty.elim r
  | succ n ih => exact fun o cd ctx out _ _ h => le_writeObject ih h

/-- The value of a field adds a level when it is a nested object. -/
def fieldDepth {R : Ty → Type} (depth : (t : Ty) → R t → ℕ) : (k : Kind Ty) → k.Val R → ℕ
  | .portable t _, some r => depth t r + 1
  | _, _ => 0

def valuesDepth {R : Ty → Type} (depth : (t : Ty) → R t → ℕ) :
    (fields : List (Name × Kind Ty)) → Values R fields → ℕ
  | [], _ => 0
  | (_, k) :: fields, (v, values) => max (fieldDepth depth k v) (valuesDepth depth fields values)

/-- How deep objects are nested in an object, each in a field of the other. -/
def nestingDepth : (n : ℕ) → (t : Ty) → Nested cls n t → ℕ
  | 0, _, r => Empty.elim r
  | n + 1, t, o => valuesDepth (nestingDepth n) (cls t).fields o.values

section

variable {R : Ty → Type} {weight depth : (t : Ty) → R t → ℕ}
    (h : ∀ t r, 16 * 2 ^ depth t r ≤ weight t r)

include h

theorem two_pow_le_fieldWeight (k : Kind Ty) (v : k.Val R) :
    fieldDepth depth k v = 0 ∨ 16 * 2 ^ fieldDepth depth k v ≤ fieldWeight weight k v := by
  unfold fieldDepth
  split
  · rename_i t style r
    have hr := h t r
    right
    rw [Nat.pow_succ]
    simp only [fieldWeight]
    omega
  · exact .inl rfl

theorem two_pow_le_valuesWeight (fields : List (Name × Kind Ty)) (values : Values R fields) :
    valuesDepth depth fields values = 0 ∨
      16 * 2 ^ valuesDepth depth fields values ≤ valuesWeight weight fields values := by
  induction fields with
  | nil => exact .inl rfl
  | cons field fields ih =>
    obtain ⟨name, k⟩ := field
    obtain ⟨v, values⟩ := values
    have hfield := two_pow_le_fieldWeight h k v
    have hrest := ih values
    simp only [valuesDepth, valuesWeight]
    rcases Nat.le_total (fieldDepth depth k v) (valuesDepth depth fields values) with hle | hle
    · rw [Nat.max_eq_right hle]
      exact hrest.imp_right fun hrest => by omega
    · rw [Nat.max_eq_left hle]
      exact hfield.imp_right fun hfield => by omega

end

theorem two_pow_le_nestedWeight (n : ℕ) (t : Ty) (o : Nested cls n t) :
    16 * 2 ^ nestingDepth cls n t o ≤ nestedWeight cls n t o := by
  induction n generalizing t with
  | zero => exact Empty.elim o
  | succ n ih =>
    simp only [nestingDepth, nestedWeight]
    rcases two_pow_le_valuesWeight ih (cls t).fields o.values with hzero | hle
    · rw [hzero]
      omega
    · omega

variable {cls} {order : ByteOrder} {n : ℕ} {t : Ty} {r : Nested cls n t} {w w' : Writer}
  {name : Name}

/-- Besides the header, the null flag and the ids, `write_portable` appends what
`write_internal` appends for the object. -/
def EncodedOnce (order : ByteOrder) (w : Writer) (name : Name) (r : Nested cls n t)
    (w' : Writer) : Prop :=
  ∃ fd w₁ w₂, w.setPosition order name .portable = .ok (fd, w₁) ∧
    (w₁.append (0 :: ids order cls t)).writeInternal cls (writing order cls n) r = .ok w₂ ∧
    w'.out.length = w.out.length + (2 + name.length + 1) + (1 + 4 + 4) +
      (w₂.out.length - (w₁.append (0 :: ids order cls t)).out.length)

theorem not_encodedOnce
    (h : w.writePortable order cls (writing order cls n) name (some r) = .ok w') :
    ¬ EncodedOnce order w name r w' := by
  rintro ⟨fd, w₁, w₂, hposition, hfirst, hlength⟩
  obtain ⟨fd', w₁', w₂', hposition', hfirst', hle⟩ :=
    writePortable_parts (appendsAtLeast_writing cls order n) h
  rw [hposition] at hposition'
  cases hposition'
  rw [hfirst] at hfirst'
  cases hfirst'
  have hheader := le_setPosition hposition
  have hobject := le_writeInternal (appendsAtLeast_writing cls order n) hfirst
  simp only [append, length_append, length_cons, ids_length] at hobject hlength
  omega

/-- A nested object is never encoded once, and what is appended for it doubles with every
level of objects in it. -/
theorem writePortable_doubles
    (h : w.writePortable order cls (writing order cls n) name (some r) = .ok w') :
    ¬ EncodedOnce order w name r w' ∧
      w.out.length + 32 * 2 ^ nestingDepth cls n t r ≤ w'.out.length := by
  refine ⟨not_encodedOnce h, ?_⟩
  have hle := le_writePortable (appendsAtLeast_writing cls order n) h
  have hweight := two_pow_le_nestedWeight cls n t r
  omega

end Trees

/-! ## One nested object -/

def sampleWriter : Writer :=
  .new .big (definition sampleClass (versionIn sampleClass sampleContext) .outer) sampleContext []

theorem sampleWriter_writes : ∃ w', sampleWriter.writePortable .big sampleClass
    (writing .big sampleClass 1) [112] (some (sampleInner none)) = .ok w' ∧
      w'.out.length = sampleWriter.out.length + 77 := by
  have hrun : (sampleWriter.writePortable .big sampleClass (writing .big sampleClass 1) [112]
      (some (sampleInner none))).toOption.any
        (fun w' => w'.out.length == sampleWriter.out.length + 77) = true := by
    decide +kernel
  rw [Option.any_eq_true] at hrun
  obtain ⟨w', hw', hlength⟩ := hrun
  cases hwrite : sampleWriter.writePortable .big sampleClass (writing .big sampleClass 1) [112]
      (some (sampleInner none)) with
  | error e =>
    rw [hwrite] at hw'
    cases hw'
  | ok w =>
    rw [hwrite] at hw'
    cases hw'
    exact ⟨w', rfl, beq_iff_eq.mp hlength⟩

theorem writePortable_doubles_sample : ∃ w', sampleWriter.writePortable .big sampleClass
    (writing .big sampleClass 1) [112] (some (sampleInner none)) = .ok w' ∧
      ¬ EncodedOnce .big sampleWriter [112] (sampleInner none) w' ∧
      sampleWriter.out.length + 32 ≤ w'.out.length := by
  obtain ⟨w', hwrite, -⟩ := sampleWriter_writes
  exact ⟨w', hwrite, writePortable_doubles hwrite⟩

/-- The header has 4 bytes, the flag and the ids 9, the object 28; there are 36 more. -/
theorem inner_encoded_twice : ∃ w', sampleWriter.writePortable .big sampleClass
    (writing .big sampleClass 1) [112] (some (sampleInner none)) = .ok w' ∧
      w'.out.length = sampleWriter.out.length + 77 ∧
      (nestedFormat .big sampleClass (versionIn sampleClass sampleContext) 1).size
        (sampleInner none) = 28 ∧
      ¬ EncodedOnce .big sampleWriter [112] (sampleInner none) w' := by
  obtain ⟨w', hwrite, hlength⟩ := sampleWriter_writes
  exact ⟨w', hwrite, hlength, by decide +kernel, not_encodedOnce hwrite⟩

end HazelcastClient.Serialization.Portable
