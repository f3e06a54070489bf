import HazelcastClient.Serialization.Portable.Reader
import HazelcastClient.Serialization.Compact.Law

/-!
# The format of portables

Where the parts of a portable object are on a stream. The positions in the tables are those
from the beginning of the stream, so the bytes of an object depend on the position at which it
stands; their number does not. `Format R` gives the size and the bytes of nested objects, and
`objectFormat` those of an object around them.

A nested object stands there twice, the second time with its ids in front.
-/

namespace HazelcastClient.Serialization.Portable

open Compact (Name)

open Layout List Writer

/-- The size of an object, with its version in front, and its bytes at a position. -/
structure Format {Ty : Type} (R : Ty → Type) where
  size : {t : Ty} → R t → ℕ
  bytes : {t : Ty} → R t → ℕ → List UInt8
  length : ∀ {t : Ty} (r : R t) (pos : ℕ), (bytes r pos).length = size r

structure Entry {Ty : Type} (R : Ty → Type) where
  name : Name
  kind : Kind Ty
  value : kind.Val R

def Values.entries {Ty : Type} {R : Ty → Type} :
    (fields : List (Name × Kind Ty)) → Values R fields → List (Entry R)
  | [], _ => []
  | (name, k) :: fields, (v, values) => ⟨name, k, v⟩ :: entries fields values

@[simp] theorem Values.entries_length {Ty : Type} {R : Ty → Type}
    (fields : List (Name × Kind Ty)) (values : Values R fields) :
    (Values.entries fields values).length = fields.length := by
  induction fields with
  | nil => rfl
  | cons field fields ih => exact congrArg (· + 1) (ih values.2)

section Simple

variable (order : ByteOrder)

def simpleBytes : (s : Simple) → s.Val → List UInt8
  | .single i, v => itemBytes order i v
  | .char16, v => order.bytes 2 (BitVec.toNat v)
  | .array _, none => storeInt32 order (-1)
  | .array i, some vs => storeInt32 order (.ofNat vs.length) ++ vs.flatMap (itemBytes order i)

def rawBytes : (ss : List Simple) → RawValues ss → List UInt8
  | [], _ => []
  | s :: ss, (v, values) => simpleBytes order s v ++ rawBytes ss values

end Simple

section Entries

variable (order : ByteOrder) {Ty : Type} (cls : Ty → Class Ty) {R : Ty → Type} (format : Format R)

@[simp] theorem ids_length (t : Ty) : (ids order cls t).length = 8 := by
  simp [ids]

def tableBytes {t : Ty} (rs : List (R t)) (pos : ℕ) : List UInt8 :=
  (place format.size pos rs).flatMap fun p => order.bytes 4 p.2

def elementBytes {t : Ty} (rs : List (R t)) (pos : ℕ) : List UInt8 :=
  (place format.size pos rs).flatMap fun p => format.bytes p.1 p.2

def payloadBytes : (k : Kind Ty) → k.Val R → ℕ → List UInt8
  | .simple s, v, _ => simpleBytes order s v
  | .portable t _, none, _ => 1 :: ids order cls t
  | .portable t _, some r, pos =>
    0 :: ids order cls t ++ format.bytes r (pos + 9) ++ ids order cls t ++
      format.bytes r (pos + 9 + format.size r + 8)
  | .portableArray t, none, _ => storeInt32 order (-1) ++ ids order cls t
  | .portableArray t, some rs, pos =>
    storeInt32 order (.ofNat rs.length) ++ ids order cls t ++
      tableBytes order format rs (pos + 12 + rs.length * 4) ++
      elementBytes format rs (pos + 12 + rs.length * 4)

def payloadSize : (k : Kind Ty) → k.Val R → ℕ
  | .simple s, v => (simpleBytes order s v).length
  | .portable _ _, none => 9
  | .portable _ _, some r => 9 + format.size r + 8 + format.size r
  | .portableArray _, none => 12
  | .portableArray _, some rs => 12 + rs.length * 4 + total format.size rs

@[simp] theorem tableBytes_length {t : Ty} (rs : List (R t)) (pos : ℕ) :
    (tableBytes order format rs pos).length = rs.length * 4 := by
  have hlength : _ = total (fun _ => 4) rs :=
    length_flatMap_place format.size (fun p => order.bytes_length 4 p.2) pos rs
  exact hlength.trans (by simp [total])

@[simp] theorem elementBytes_length {t : Ty} (rs : List (R t)) (pos : ℕ) :
    (elementBytes format rs pos).length = total format.size rs :=
  length_flatMap_place _ (fun p => format.length p.1 p.2) pos rs

theorem payloadBytes_length (k : Kind Ty) (v : k.Val R) (pos : ℕ) :
    (payloadBytes order cls format k v pos).length = payloadSize order format k v := by
  cases k with
  | simple s => rfl
  | portable t style =>
    cases v with
    | none => simp [payloadBytes, payloadSize]
    | some r =>
      simp only [payloadBytes, payloadSize, length_append, length_cons, ids_length,
        format.length]
  | portableArray t =>
    cases v with
    | none => simp [payloadBytes, payloadSize]
    | some rs =>
      simp only [payloadBytes, payloadSize, length_append, ids_length, storeInt32_length,
        tableBytes_length, elementBytes_length]

def entryBytes (e : Entry R) (pos : ℕ) : List UInt8 :=
  fieldHeader order e.name e.kind.fieldType ++
    payloadBytes order cls format e.kind e.value (pos + (e.name.length + 3))

def entrySize (e : Entry R) : ℕ := e.name.length + 3 + payloadSize order format e.kind e.value

@[simp] theorem fieldHeader_length (name : Name) (type : FieldType) :
    (fieldHeader order name type).length = name.length + 3 := by
  simp only [fieldHeader, length_append, ByteOrder.bytes_length, length_cons,
    length_nil]
  omega

theorem entryBytes_length (e : Entry R) (pos : ℕ) :
    (entryBytes order cls format e pos).length = entrySize order format e := by
  rw [entryBytes, length_append, fieldHeader_length, payloadBytes_length, entrySize]

def entriesBytes (es : List (Entry R)) (pos : ℕ) : List UInt8 :=
  (place (entrySize order format) pos es).flatMap fun p => entryBytes order cls format p.1 p.2

def entryPositions (es : List (Entry R)) (pos : ℕ) : List ℕ :=
  (place (entrySize order format) pos es).map Prod.snd

@[simp] theorem entriesBytes_length (es : List (Entry R)) (pos : ℕ) :
    (entriesBytes order cls format es pos).length = total (entrySize order format) es :=
  length_flatMap_place _ (fun p => entryBytes_length order cls format p.1 p.2) pos es

@[simp] theorem entryPositions_length (es : List (Entry R)) (pos : ℕ) :
    (entryPositions order format es pos).length = es.length := by
  rw [entryPositions, length_map, ← length_map Prod.fst, place_map_fst]

end Entries

section Objects

variable (order : ByteOrder) {Ty : Type} (cls : Ty → Class Ty) {R : Ty → Type} (format : Format R)
  {t : Ty} (o : Obj cls R t)

def Obj.entries : List (Entry R) := Values.entries (cls t).fields o.values

/-- The place of the first field of an object that stands at `pos`: behind the version, the
final position, the number of fields and the table. -/
def firstField (t : Ty) (pos : ℕ) : ℕ := pos + 12 + ((cls t).fields.length + 1) * 4

def rawPosition (pos : ℕ) : ℕ :=
  firstField cls t pos + total (entrySize order format) (o.entries cls)

def finalPosition (pos : ℕ) : ℕ :=
  rawPosition order cls format o pos + (rawBytes order ((cls t).raw.getD []) o.raw).length

def tablePositions (pos : ℕ) : List ℕ :=
  entryPositions order format (o.entries cls) (firstField cls t pos) ++
    [if (cls t).raw.isSome then rawPosition order cls format o pos else 0]

def objectBytes (version : Int32) (pos : ℕ) : List UInt8 :=
  storeInt32 order version ++ order.bytes 4 (finalPosition order cls format o pos) ++
    storeInt32 order (.ofNat (cls t).fields.length) ++
    (tablePositions order cls format o pos).flatMap (order.bytes 4) ++
    entriesBytes order cls format (o.entries cls) (firstField cls t pos) ++
    rawBytes order ((cls t).raw.getD []) o.raw

def objectSize : ℕ :=
  12 + ((cls t).fields.length + 1) * 4 + total (entrySize order format) (o.entries cls) +
    (rawBytes order ((cls t).raw.getD []) o.raw).length

theorem finalPosition_eq (pos : ℕ) :
    finalPosition order cls format o pos = pos + objectSize order cls format o := by
  unfold finalPosition rawPosition firstField objectSize
  omega

theorem flatMap_bytes_length (l : List ℕ) : (l.flatMap (order.bytes 4)).length = l.length * 4 :=
  RandomAccess.flatMap_length (order.bytes_length 4) l

theorem tablePositions_length (pos : ℕ) :
    (tablePositions order cls format o pos).length = (cls t).fields.length + 1 := by
  rw [tablePositions, length_append, entryPositions_length, Obj.entries,
    Values.entries_length, length_singleton]

theorem objectBytes_length (version : Int32) (pos : ℕ) :
    (objectBytes order cls format o version pos).length = objectSize order cls format o := by
  simp only [objectBytes, objectSize, length_append, storeInt32_length,
    ByteOrder.bytes_length, flatMap_bytes_length, tablePositions_length, entriesBytes_length]

end Objects

/-- The format of objects, where `version` is the version of a class. -/
def objectFormat (order : ByteOrder) {Ty : Type} (cls : Ty → Class Ty) (version : Ty → Int32)
    {R : Ty → Type} (format : Format R) : Format (Obj cls R) where
  size := fun o => objectSize order cls format o
  bytes := fun {t} o pos => objectBytes order cls format o (version t) pos
  length := fun {t} o pos => objectBytes_length order cls format o (version t) pos

/-- The format of objects of `n` levels. -/
def nestedFormat (order : ByteOrder) {Ty : Type} (cls : Ty → Class Ty) (version : Ty → Int32) :
    (n : ℕ) → Format (Nested cls n)
  | 0 => ⟨fun r => Empty.elim r, fun r => Empty.elim r, fun r => Empty.elim r⟩
  | n + 1 => objectFormat order cls version (nestedFormat order cls version n)

end HazelcastClient.Serialization.Portable
