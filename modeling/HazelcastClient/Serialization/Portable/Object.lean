import HazelcastClient.Serialization.Portable.Definition

/-!
# Portable objects

A portable class has a serializer `hz_serializer<T>`, which writes the fields of an object
in a fixed order, each with one call, and then perhaps some raw data; it reads them in the
same order. `Class` is what such a serializer does. A nested portable is written with
`write_portable`, and a serializer can pass it a null pointer or call `write_null_portable`
instead.

`Obj R t` is an object of the class `t` whose nested objects are of the types `R`, and
`Nested n t` one with less than `n` levels.
-/

namespace HazelcastClient.Serialization.Portable

open Compact (Name Primitive Numeric Output Input)

open ByteParser Compact

/-- What an array can hold. A `byte` is a number of eight bits. -/
inductive Item where
  | primitive (p : Primitive)
  | char
  | string
  deriving DecidableEq

/-- The values that a field holds itself. There is no array of `char16_t`. -/
inductive Simple where
  | single (i : Item)
  | char16
  | array (i : Item)
  deriving DecidableEq

/-- What a serializer does with a null pointer to a nested portable. -/
inductive NullStyle where
  | writeNullPortable
  | passPointer
  deriving DecidableEq

/-- A field of a class, where `Ty` are the portable classes. -/
inductive Kind (Ty : Type) where
  | simple (s : Simple)
  | portable (t : Ty) (style : NullStyle)
  | portableArray (t : Ty)

def Item.fieldType : Item → FieldType
  | .primitive .boolean => .boolean
  | .primitive (.numeric .int8) => .byte
  | .primitive (.numeric .int16) => .short
  | .primitive (.numeric .int32) => .int
  | .primitive (.numeric .int64) => .long
  | .primitive (.numeric .float32) => .float
  | .primitive (.numeric .float64) => .double
  | .char => .char
  | .string => .string

def Item.arrayType : Item → FieldType
  | .primitive .boolean => .booleanArray
  | .primitive (.numeric .int8) => .byteArray
  | .primitive (.numeric .int16) => .shortArray
  | .primitive (.numeric .int32) => .intArray
  | .primitive (.numeric .int64) => .longArray
  | .primitive (.numeric .float32) => .floatArray
  | .primitive (.numeric .float64) => .doubleArray
  | .char => .charArray
  | .string => .stringArray

/-- `PortableContext::get_type`. -/
def Simple.fieldType : Simple → FieldType
  | .single i => i.fieldType
  | .char16 => .char
  | .array i => i.arrayType

def Kind.fieldType {Ty : Type} : Kind Ty → FieldType
  | .simple s => s.fieldType
  | .portable _ _ => .portable
  | .portableArray _ => .portableArray

/-- `hz_serializer<T>`. A class without a version of its own has the one of the context. -/
structure Class (Ty : Type) where
  factoryId : Int32
  classId : Int32
  version : Option Int32 := none
  fields : List (Name × Kind Ty)
  raw : Option (List Simple) := none
  nodup : (fields.map Prod.fst).Nodup
  short : ∀ field ∈ fields, field.1.length ≤ 32767

def Class.getVersion {Ty : Type} (cls : Class Ty) (defaultVersion : Int32) : Int32 :=
  cls.version.getD defaultVersion

@[reducible] def Item.Val : Item → Type
  | .primitive p => p.Val
  | .char => BitVec 8
  | .string => List UInt8

@[reducible] def Simple.Val : Simple → Type
  | .single i => i.Val
  | .char16 => BitVec 16
  | .array i => Option (List i.Val)

@[reducible] def Kind.Val {Ty : Type} (R : Ty → Type) : Kind Ty → Type
  | .simple s => s.Val
  | .portable t _ => Option (R t)
  | .portableArray t => Option (List (R t))

def Values {Ty : Type} (R : Ty → Type) : List (Name × Kind Ty) → Type
  | [] => Unit
  | field :: fields => field.2.Val R × Values R fields

def RawValues : List Simple → Type
  | [] => Unit
  | s :: ss => s.Val × RawValues ss

section Objects

variable {Ty : Type} (cls : Ty → Class Ty)

structure Obj (R : Ty → Type) (t : Ty) where
  values : Values R (cls t).fields
  raw : RawValues ((cls t).raw.getD [])

/-- Objects that are nested less than `n` levels deep. -/
def Nested : ℕ → Ty → Type
  | 0, _ => Empty
  | n + 1, t => Obj cls (Nested n) t

end Objects

/-! ## Values on a stream -/

section Streams

variable (order : ByteOrder)

/-- The bytes of an item; a `char` is written as an `int16_t`. -/
def itemBytes : (i : Item) → i.Val → List UInt8
  | .primitive p, v => primitiveBytes order p v
  | .char, v => order.bytes 2 (BitVec.signExtend 16 v).toNat
  | .string, v => storeInt32 order (.ofNat (List.length v)) ++ v

/-- `data_output::write` of an item. -/
def writeItem : (i : Item) → i.Val → Output → Compact.Result Output
  | .primitive p, v => fun out => .ok (out ++ itemBytes order (.primitive p) v)
  | .char, v => fun out => .ok (out ++ itemBytes order .char v)
  | .string, v => writeBytes order v

def writeItems (i : Item) : List i.Val → Output → Compact.Result Output
  | [], out => .ok out
  | v :: vs, out => do
    let out ← writeItem order i v out
    writeItems i vs out

/-- `data_output::write` of a value. -/
def writeSimple : (s : Simple) → s.Val → Output → Compact.Result Output
  | .single i, v => writeItem order i v
  | .char16, v => fun out => .ok (out ++ order.bytes 2 (BitVec.toNat v))
  | .array _, none => fun out => .ok (out ++ storeInt32 order (-1))
  | .array i, some vs => fun out => do
    let len ← toInt vs.length
    writeItems order i vs (out ++ storeInt32 order (.ofNat len))

def readChar16 : Input (BitVec 16) := do
  let v ← readNat order 2
  pure (BitVec.ofNat 16 v)

/-- `data_input::read` of an item; a `char` is the lower half of a `char16_t`. -/
def readItem : (i : Item) → Input i.Val
  | .primitive p => readPrimitive order p
  | .char => do
    let v ← readChar16 order
    pure (v.setWidth 8)
  | .string => readString order

/-- `data_input::read` of a vector, which has no empty vectors. -/
def readArray (i : Item) : Input (Option (List i.Val)) := do
  let len ← readInt32 order
  if len = -1 then pure none
  else if len = 0 then pure none
  else if len < 0 then .fail (.thrown (.negativeArraySize len.toInt))
  else
    let values ← (readItem order i).times len.toInt.toNat
    pure (some values)

/-- `data_input::read` of a value. -/
def readSimple : (s : Simple) → Input s.Val
  | .single i => readItem order i
  | .char16 => readChar16 order
  | .array i => readArray order i

end Streams

end HazelcastClient.Serialization.Portable
