import HazelcastClient.Serialization.Portable.Object

/-!
# Writing portables

`PortableSerializer::write` looks up the definition of the class. If there is none, the
serializer of the class runs once with a `ClassDefinitionWriter`, which derives and registers
the definition, and which cannot do so for an object with absent parts. Then the serializer
runs with a `DefaultPortableWriter`. That one keeps a table of the positions of the fields in
front of them, and puts a position there when it comes to the field.

`DefaultPortableWriter::write_portable` writes a nested object a second time, behind the
first one and with its ids. It does so without another look at the pointer.
-/

namespace HazelcastClient.Serialization.Portable

open Compact (Name Output)

/-- How nested objects are written: `create_nested_class_def` and `write_internal` with a
definition. -/
structure Writing {Ty : Type} (R : Ty → Type) where
  define : {t : Ty} → R t → Context → Result (ClassDefinition × Context)
  writeWith : {t : Ty} → R t → ClassDefinition → Context → Output → Result (Output × Context)

def ofStream {T : Type} (r : Compact.Result T) : Result T := r.mapError Failure.stream

section Definitions

variable {Ty : Type} (cls : Ty → Class Ty) {R : Ty → Type} (nested : Writing R)

/-- `ClassDefinitionWriter::write_null_portable`, which looks for the version of the
context. -/
def lookupNull (t : Ty) (ctx : Context) : Result ClassDefinition :=
  match ctx.lookup (cls t).factoryId (cls t).classId ctx.version with
  | some cd => .ok cd
  | none => .error (.thrown .nullPortable)

/-- The call of a serializer at a `ClassDefinitionWriter` for a class of the given version. -/
def defineField (version : Int32) (name : Name) : (k : Kind Ty) → k.Val R →
    List FieldDefinition → Context → Result (List FieldDefinition × Context)
  | .simple s, _, defs, ctx => do
    let defs ← addField defs ⟨defs.length, name, s.fieldType, 0, 0, version⟩
    .ok (defs, ctx)
  | .portable _ _, some r, defs, ctx => do
    let (cd, ctx) ← nested.define r ctx
    let defs ← addPortableField defs name .portable cd
    .ok (defs, ctx)
  | .portable t .writeNullPortable, none, defs, ctx => do
    let cd ← lookupNull cls t ctx
    let defs ← addPortableField defs name .portable cd
    .ok (defs, ctx)
  | .portable _ .passPointer, none, _, _ => .error (.thrown .nullPointer)
  | .portableArray _, some (r :: _), defs, ctx => do
    let (cd, ctx) ← nested.define r ctx
    let defs ← addPortableField defs name .portableArray cd
    .ok (defs, ctx)
  | .portableArray _, _, _, _ => .error (.thrown .nullPortableArray)

def defineFields (version : Int32) : (fields : List (Name × Kind Ty)) → Values R fields →
    List FieldDefinition → Context → Result (List FieldDefinition × Context)
  | [], _, defs, ctx => .ok (defs, ctx)
  | (name, k) :: fields, (v, values), defs, ctx => do
    let (defs, ctx) ← defineField cls nested version name k v defs ctx
    defineFields version fields values defs ctx

/-- `create_nested_class_def`; `lookup_or_register_class_definition` does the same for a class
without a definition. Raw data leaves no trace in it. -/
def defineObject {t : Ty} (o : Obj cls R t) (ctx : Context) :
    Result (ClassDefinition × Context) := do
  let version := (cls t).getVersion ctx.version
  let (defs, ctx) ← defineFields cls nested version (cls t).fields o.values [] ctx
  ctx.registerClassDefinition (.build (cls t).factoryId (cls t).classId version defs)

/-- `lookup_or_register_class_definition`. -/
def lookupOrRegister {t : Ty} (r : R t) (ctx : Context) : Result (ClassDefinition × Context) :=
  match ctx.lookup (cls t).factoryId (cls t).classId ((cls t).getVersion ctx.version) with
  | some cd => .ok (cd, ctx)
  | none => nested.define r ctx

end Definitions

/-- `DefaultPortableWriter`, with the context that its nested writers use. -/
structure Writer where
  cd : ClassDefinition
  context : Context
  out : Output
  start : ℕ
  offset : ℕ
  raw : Bool := false
  writtenFields : List Name := []

namespace Writer

variable (order : ByteOrder)

def new (cd : ClassDefinition) (ctx : Context) (out : Output) : Writer where
  cd := cd
  context := ctx
  out := out ++ storeInt32 order 0 ++ storeInt32 order (.ofNat cd.getFieldCount) ++
    List.replicate ((cd.getFieldCount + 1) * 4) 0
  start := out.length
  offset := out.length + 8

def append (w : Writer) (bytes : List UInt8) : Writer := { w with out := w.out ++ bytes }

/-- Puts the position of the output into the table, or in front of the object. -/
def writePosition (w : Writer) (index : ℕ) : Result Writer := do
  let pos ← ofStream (Compact.toInt w.out.length)
  let out ← ofStream (Compact.writeAt order 4 pos index w.out)
  .ok { w with out := out }

/-- The length of the name as an `int16_t`, the name and the type. -/
def fieldHeader (fieldName : Name) (type : FieldType) : List UInt8 :=
  order.bytes 2 fieldName.length ++ fieldName ++ [type.toByte]

def setPosition (w : Writer) (fieldName : Name) (type : FieldType) :
    Result (FieldDefinition × Writer) := do
  if w.raw then .error (.thrown .writeAfterRaw) else
    let fd ← w.cd.getField fieldName
    if fieldName ∈ w.writtenFields then .error (.thrown (.alreadyWritten fieldName)) else
      let w ← w.writePosition order (w.offset + fd.index * 4)
      .ok (fd, { w with
        out := w.out ++ fieldHeader order fieldName type
        writtenFields := fieldName :: w.writtenFields })

def getRawDataOutput (w : Writer) : Result Writer := do
  if w.raw then .ok w else
    let w ← w.writePosition order (w.offset + w.cd.getFieldCount * 4)
    .ok { w with raw := true }

/-- `end()`. -/
def finish (w : Writer) : Result (Output × Context) := do
  let w ← w.writePosition order w.start
  .ok (w.out, w.context)

/-- `write` of a value. -/
def write (w : Writer) (fieldName : Name) (s : Simple) (v : s.Val) : Result Writer := do
  let (_, w) ← w.setPosition order fieldName s.fieldType
  let out ← ofStream (writeSimple order s v w.out)
  .ok { w with out := out }

section Nested

variable {Ty : Type} (cls : Ty → Class Ty)

def ids (t : Ty) : List UInt8 :=
  storeInt32 order (cls t).factoryId ++ storeInt32 order (cls t).classId

def checkPortableAttributes (t : Ty) (fd : FieldDefinition) : Result Unit :=
  if fd.factoryId ≠ (cls t).factoryId then
    .error (.thrown (.wrongFactoryId fd.factoryId (cls t).factoryId))
  else if fd.classId ≠ (cls t).classId then
    .error (.thrown (.wrongClassId fd.classId (cls t).classId))
  else .ok ()

variable {R : Ty → Type} (nested : Writing R)

/-- `PortableSerializer::write_internal` of a nested object. -/
def writeInternal {t : Ty} (w : Writer) (r : R t) : Result Writer := do
  let (cd, ctx) ← lookupOrRegister cls nested r w.context
  let (out, ctx) ← nested.writeWith r cd ctx w.out
  .ok { w with out := out, context := ctx }

def writeNullPortable (w : Writer) (fieldName : Name) (t : Ty) : Result Writer := do
  let (_, w) ← w.setPosition order fieldName .portable
  .ok (w.append (1 :: ids order cls t))

/-- `write_portable`. The object is written again in the end, and a null pointer is
dereferenced there. -/
def writePortable {t : Ty} (w : Writer) (fieldName : Name) (portable : Option (R t)) :
    Result Writer := do
  let (fd, w) ← w.setPosition order fieldName .portable
  match portable with
  | none => .error (.stream .undefined)
  | some r =>
    let w := w.append (0 :: ids order cls t)
    checkPortableAttributes cls t fd
    let w ← w.writeInternal cls nested r
    (w.append (ids order cls t)).writeInternal cls nested r

/-- The loop over the objects of an array; `index` is the entry of the next one. -/
def writeElements {t : Ty} (cd : ClassDefinition) : ℕ → List (R t) → Writer → Result Writer
  | _, [], w => .ok w
  | index, r :: rs, w => do
    let w ← w.writePosition order index
    let (out, ctx) ← nested.writeWith r cd w.context w.out
    writeElements cd (index + 4) rs { w with out := out, context := ctx }

def writePortableArray (w : Writer) (fieldName : Name) (t : Ty) (values : Option (List (R t))) :
    Result Writer := do
  let (fd, w) ← w.setPosition order fieldName .portableArray
  checkPortableAttributes cls t fd
  let fieldIds := storeInt32 order fd.factoryId ++ storeInt32 order fd.classId
  match values with
  | none => .ok (w.append (storeInt32 order (-1) ++ fieldIds))
  | some [] => .ok (w.append (storeInt32 order 0 ++ fieldIds))
  | some (r :: rs) =>
    let len ← ofStream (Compact.toInt (rs.length + 1))
    let w := w.append (storeInt32 order (.ofNat len) ++ fieldIds)
    let (cd, ctx) ← lookupOrRegister cls nested r w.context
    writeElements order nested cd w.out.length (r :: rs)
      { w with out := w.out ++ List.replicate (len * 4) 0, context := ctx }

def writeField (w : Writer) (name : Name) : (k : Kind Ty) → k.Val R → Result Writer
  | .simple s, v => w.write order name s v
  | .portable t .writeNullPortable, none => w.writeNullPortable order cls name t
  | .portable _ _, value => w.writePortable order cls nested name value
  | .portableArray t, values => w.writePortableArray order cls nested name t values

def writeFields : (fields : List (Name × Kind Ty)) → Values R fields → Writer → Result Writer
  | [], _, w => .ok w
  | (name, k) :: fields, (v, values), w => do
    let w ← w.writeField order cls nested name k v
    writeFields fields values w

end Nested

def writeRaw : (ss : List Simple) → RawValues ss → Writer → Result Writer
  | [], _, w => .ok w
  | s :: ss, (v, values), w => do
    let out ← ofStream (writeSimple order s v w.out)
    writeRaw ss values { w with out := out }

/-- A serializer that has raw data asks for the output first. -/
def writeRawData (w : Writer) : (raw : Option (List Simple)) → RawValues (raw.getD []) →
    Result Writer
  | none, _ => .ok w
  | some ss, values => do
    let w ← w.getRawDataOutput order
    writeRaw order ss values w

end Writer

section Objects

variable (order : ByteOrder) {Ty : Type} (cls : Ty → Class Ty) {R : Ty → Type}
  (nested : Writing R)

/-- `write_internal` of an object with the definition of its class. -/
def writeObject {t : Ty} (o : Obj cls R t) (cd : ClassDefinition) (ctx : Context)
    (out : Output) : Result (Output × Context) := do
  let w ← (Writer.new order cd ctx (out ++ storeInt32 order cd.version)).writeFields order cls
    nested (cls t).fields o.values
  let w ← w.writeRawData order (cls t).raw o.raw
  w.finish order

/-- How objects of `n` levels are written. -/
def writing : (n : ℕ) → Writing (Nested cls n)
  | 0 => ⟨fun r => Empty.elim r, fun r => Empty.elim r⟩
  | n + 1 => ⟨defineObject cls (writing n), writeObject order cls (writing n)⟩

def write {n : ℕ} {t : Ty} (o : Nested cls n t) (ctx : Context) (out : Output) :
    Result (Output × Context) := do
  let out := out ++ Writer.ids order cls t
  let (cd, ctx) ← lookupOrRegister cls (writing order cls n) o ctx
  (writing order cls n).writeWith o cd ctx out

end Objects

end HazelcastClient.Serialization.Portable
