import HazelcastClient.Serialization.Compact.Reader
import HazelcastClient.Serialization.Compact.SchemaLayout

/-!
# Compact records

A generic record has a schema and a value for each field. Its fields can be written in any
order. A record that is nested in another one has the id of its schema in front, under
which `default_schema_service` finds the schema again.
-/

namespace HazelcastClient.Serialization.Compact

open ByteParser

/-- A schema that the constructor has made of some fields. -/
structure BuiltSchema where
  fields : FieldMap
  schema : Schema
  built : Schema.ofFields schema.typeName fields = some schema

def Values (R : Type) : List (Name × FieldDescriptor) → Type
  | [] => Unit
  | f :: fs => f.2.kind.Val R × Values R fs

/-- `generic_record`. -/
structure Record (R : Type) where
  type : BuiltSchema
  values : Values R type.schema.fields

structure Entry (R : Type) where
  name : Name
  kind : FieldKind
  value : kind.Val R

section Entries

variable {R : Type}

def Values.entries : (fs : List (Name × FieldDescriptor)) → Values R fs → List (Entry R)
  | [], _ => []
  | f :: fs, values => ⟨f.1, f.2.kind, values.1⟩ :: entries fs values.2

theorem entries_cons (f : Name × FieldDescriptor) (fs : List (Name × FieldDescriptor))
    (value : f.2.kind.Val R) (values : Values R fs) :
    Values.entries (f :: fs) (value, values) =
      ⟨f.1, f.2.kind, value⟩ :: Values.entries fs values := rfl

def Record.entries (r : Record R) : List (Entry R) := Values.entries r.type.schema.fields r.values

end Entries

section Methods

variable (order : ByteOrder) {R : Type} (c : Codec R)

def writeEntries (w : Writer) : List (Entry R) → Result Writer
  | [] => .ok w
  | e :: es => do
    let w ← w.writeField order c e.name e.kind e.value
    writeEntries w es

/-- Writes fields with a `default_compact_writer`, and calls `end()`. -/
def writeRecord (schema : Schema) (es : List (Entry R)) (out : Output) : Result Output := do
  let w ← writeEntries order c (Writer.new schema out) es
  w.finish order

def readValues (r : Reader) : (fs : List (Name × FieldDescriptor)) → Result (Values R fs)
  | [] => .ok ()
  | f :: fs => do
    let value ← r.readField order c f.1 f.2.kind
    let values ← readValues r fs
    .ok (value, values)

/-- Reads all fields with a `default_compact_reader`. -/
def readRecord (type : BuiltSchema) : Input (Record R) := fun data pos => do
  let r ← Reader.new order type.schema data pos
  let values ← readValues order c r type.schema.fields
  .ok (⟨type, values⟩, r.position)

/-- Writes the fields to an output, and reads the record that begins there. -/
def roundTrip (type : BuiltSchema) (es : List (Entry R)) (out : Output) : Result (Record R) := do
  let data ← writeRecord order c type.schema es out
  let r ← readRecord order c type data out.length
  .ok r.1

/-- `default_schema_service::get`. -/
abbrev SchemaService := Int64 → Option BuiltSchema

/-- `compact_stream_serializer`, for records whose nested records have the codec `c`. -/
def recordCodec (service : SchemaService) : Codec (Record R) where
  write r out :=
    writeRecord order c r.type.schema r.entries
      (out ++ order.bytes 8 r.type.schema.schemaId.toUInt64.toNat)
  read := do
    let schemaId ← readInt64 order
    match service schemaId with
    | none => .fail (.thrown (.schemaNotFound schemaId))
    | some type => readRecord order c type

end Methods

/-- Records that are nested less than `n` levels deep. -/
def Nested : ℕ → Type
  | 0 => Empty
  | n + 1 => Record (Nested n)

/-- `compact_stream_serializer` for records of `n` levels. -/
def nestedCodec (order : ByteOrder) (service : SchemaService) : (n : ℕ) → Codec (Nested n)
  | 0 => ⟨fun r => Empty.elim r, .fail .undefined⟩
  | n + 1 => recordCodec order (nestedCodec order service n) service

end HazelcastClient.Serialization.Compact
