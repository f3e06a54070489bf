import Mathlib.Data.List.Sort
import HazelcastClient.Util.Layout
import HazelcastClient.Util.LittleEndian

/-!
# Compact schemas

A schema says where the fields of a compact record are. Fields of a fixed size come
first, the widest ones before the others; then the booleans, one bit each; the other
fields have a number, under which the record keeps their offset.

The bits are counted with an `int8_t`. After the first 128 booleans the counter is
negative, and so is the remainder that is stored as the position of the bit.
-/

namespace HazelcastClient.Serialization.Compact

open Layout

/-- A `std::string`: its bytes. -/
abbrev Name := List UInt8

inductive Numeric where
  | int8
  | int16
  | int32
  | int64
  | float32
  | float64
  deriving DecidableEq

def Numeric.size : Numeric → ℕ
  | .int8 => 1
  | .int16 => 2
  | .int32 => 4
  | .int64 => 8
  | .float32 => 4
  | .float64 => 8

inductive Primitive where
  | boolean
  | numeric (n : Numeric)
  deriving DecidableEq

/-- What a field can hold or lack. -/
inductive Item where
  | primitive (p : Primitive)
  | string
  | decimal
  | time
  | date
  | timestamp
  | timestampWithTimezone
  | compact
  deriving DecidableEq

/-- The kinds of fields. `STRING` and the kinds after it are always nullable: the kind
`STRING` is `nullable .string`, and `ARRAY_OF_STRING` is `arrayOfNullable .string`. -/
inductive FieldKind where
  | notAvailable
  | primitive (p : Primitive)
  | arrayOf (p : Primitive)
  | nullable (i : Item)
  | arrayOfNullable (i : Item)
  deriving DecidableEq

namespace FieldKind

def primitiveNumber : Primitive → ℕ
  | .boolean => 1
  | .numeric .int8 => 3
  | .numeric .int16 => 7
  | .numeric .int32 => 9
  | .numeric .int64 => 11
  | .numeric .float32 => 13
  | .numeric .float64 => 15

def nullableNumber : Item → ℕ
  | .string => 17
  | .decimal => 19
  | .time => 21
  | .date => 23
  | .timestamp => 25
  | .timestampWithTimezone => 27
  | .compact => 29
  | .primitive .boolean => 33
  | .primitive (.numeric .int8) => 35
  | .primitive (.numeric .int16) => 37
  | .primitive (.numeric .int32) => 39
  | .primitive (.numeric .int64) => 41
  | .primitive (.numeric .float32) => 43
  | .primitive (.numeric .float64) => 45

/-- The number of a kind in `field_kind`; the kind of the array comes after that of its
items. -/
def number : FieldKind → ℕ
  | .notAvailable => 0
  | .primitive p => primitiveNumber p
  | .arrayOf p => primitiveNumber p + 1
  | .nullable i => nullableNumber i
  | .arrayOfNullable i => nullableNumber i + 1

def variableSize : ℤ := -1

/-- `kind_size_in_byte_func` of the operations of a kind. -/
def kindSizeInByte : FieldKind → ℤ
  | .primitive .boolean => 0
  | .primitive (.numeric n) => n.size
  | _ => variableSize

end FieldKind

/-- The parts of a record that a field can belong to. -/
inductive Area where
  | variableSize
  | boolean
  | fixedSize
  deriving DecidableEq

def FieldKind.area (kind : FieldKind) : Area :=
  if kind.kindSizeInByte = FieldKind.variableSize then .variableSize
  else if kind = .primitive .boolean then .boolean
  else .fixedSize

structure FieldDescriptor where
  kind : FieldKind
  index : ℤ := -1
  offset : ℤ := -1
  bitOffset : Int8 := -1
  deriving DecidableEq

/-- The fields of a class: distinct names with their kinds, in the order in which the map
lists them. -/
structure FieldMap where
  toList : List (Name × FieldKind)
  nodup : (toList.map Prod.fst).Nodup

structure Schema where
  typeName : Name
  /-- `field_definition_map_`. -/
  fields : List (Name × FieldDescriptor)
  fixedSizeFieldsLength : ℕ
  numberOfVarSizeFields : ℕ
  schemaId : Int64
  deriving DecidableEq

def Schema.getField (schema : Schema) (fieldName : Name) : Option FieldDescriptor :=
  schema.fields.lookup fieldName

def Schema.fieldsIn (schema : Schema) (area : Area) : List (Name × FieldDescriptor) :=
  schema.fields.filter fun f => f.2.kind.area = area

section Fingerprint

/-- `rabin_finger_print::INIT`. -/
def fingerprintInit : UInt64 := 0xc15d213aa4d7a795

/-- An entry of the table of `init_fp_table`. -/
def fingerprintEntry (i : UInt64) : UInt64 :=
  (List.range 8).foldl (fun fp _ => (fp >>> 1) ^^^ (fingerprintInit &&& (0 - (fp &&& 1)))) i

/-- `fingerprint64` of a byte. -/
def fingerprintByte (fp : UInt64) (b : UInt8) : UInt64 :=
  (fp >>> 8) ^^^ fingerprintEntry ((fp ^^^ b.toUInt64) &&& 0xff)

/-- `fingerprint64` of an `int`: its four bytes, the lowest one first. -/
def fingerprintInt (fp : UInt64) (v : ℕ) : UInt64 :=
  (LittleEndian.leBytes 4 v).foldl fingerprintByte fp

/-- `fingerprint64` of a string. -/
def fingerprintString (fp : UInt64) (value : Name) : UInt64 :=
  value.foldl fingerprintByte (fingerprintInt fp value.length)

/-- `fingerprint64` of a type name and sorted fields. -/
def fingerprint (typeName : Name) (fields : List (Name × FieldDescriptor)) : Int64 :=
  let fp := fingerprintInt (fingerprintString fingerprintInit typeName) fields.length
  (fields.foldl (fun fp f => fingerprintInt (fingerprintString fp f.1) f.2.kind.number) fp).toInt64

end Fingerprint

/-- The largest `int`. -/
def intMax : ℕ := 2147483647

/-- The sum of two `int`s, where it is defined. -/
def addInt (a b : ℤ) : Option ℤ :=
  if -intMax - 1 ≤ a + b ∧ a + b ≤ intMax then some (a + b) else none

/-- A loop over fields with a running `int`: each field stores it and adds its size. The
value after the last field is part of the result. -/
def placeEach (size : FieldDescriptor → ℤ) (store : FieldDescriptor → ℤ → FieldDescriptor) :
    ℤ → List (Name × FieldDescriptor) → Option (List (Name × FieldDescriptor) × ℤ)
  | start, [] => some ([], start)
  | start, f :: fields =>
    (addInt start (size f.2)).bind fun next =>
      (placeEach size store next fields).map fun placed =>
        ((f.1, store f.2 start) :: placed.1, placed.2)

/-- The loop over `fixed_size_fields`. -/
def placeFixed : ℤ → List (Name × FieldDescriptor) → Option (List (Name × FieldDescriptor) × ℤ) :=
  placeEach (fun d => d.kind.kindSizeInByte) fun d offset => { d with offset := offset }

/-- The loop over `variable_size_fields`. -/
def placeVariable : ℤ → List (Name × FieldDescriptor) →
    Option (List (Name × FieldDescriptor) × ℤ) :=
  placeEach (fun _ => 1) fun d index => { d with index := index }

/-- The loop over `boolean_fields`. The increment of the `int8_t` wraps around, and the
remainder has the sign of the counter. -/
def placeBooleans : ℤ → Int8 → List (Name × FieldDescriptor) →
    Option (List (Name × FieldDescriptor) × ℤ × Int8)
  | offset, bitOffset, [] => some ([], offset, bitOffset)
  | offset, bitOffset, f :: fields =>
    (if (bitOffset + 1) % 8 = 0 then addInt offset 1 else some offset).bind fun next =>
      (placeBooleans next (bitOffset + 1) fields).map fun placed =>
        ((f.1, { f.2 with offset := offset, bitOffset := bitOffset % 8 }) :: placed.1, placed.2)

/-- `sorted_fields`: the fields by name. -/
def sortedFields (fields : FieldMap) : List (Name × FieldDescriptor) :=
  (fields.toList.map fun f => (f.1, { kind := f.2 })).insertionSort fun f g => f.1 ≤ g.1

def sortedFieldsIn (fields : FieldMap) (area : Area) : List (Name × FieldDescriptor) :=
  (sortedFields fields).filter fun f => f.2.kind.area = area

/-- `fixed_size_fields` after `stable_sort` with `kind_size_comparator`. -/
def fixedSizeFields (fields : FieldMap) : List (Name × FieldDescriptor) :=
  (sortedFieldsIn fields .fixedSize).insertionSort fun f g =>
    g.2.kind.kindSizeInByte ≤ f.2.kind.kindSizeInByte

def assign (fields : FieldMap) (placed : List (Name × FieldDescriptor)) :
    List (Name × FieldDescriptor) :=
  fields.toList.map fun f => (f.1, (placed.lookup f.1).getD { kind := f.2 })

/-- The constructor of `schema`, where it is defined. -/
def Schema.ofFields (typeName : Name) (fields : FieldMap) : Option Schema :=
  (placeFixed 0 (fixedSizeFields fields)).bind fun fixed =>
  (placeBooleans fixed.2 0 (sortedFieldsIn fields .boolean)).bind fun booleans =>
  (if booleans.2.2 % 8 ≠ 0 then addInt booleans.2.1 1 else some booleans.2.1).bind fun offset =>
  (placeVariable 0 (sortedFieldsIn fields .variableSize)).map fun others =>
    { typeName := typeName
      fields := assign fields (fixed.1 ++ booleans.1 ++ others.1)
      fixedSizeFieldsLength := offset.toNat
      numberOfVarSizeFields := others.2.toNat
      schemaId := fingerprint typeName (sortedFields fields) }

end HazelcastClient.Serialization.Compact
