import HazelcastClient.Serialization.Portable.Writer

/-!
# Reading portables

`PortableSerializer::read` takes the definition of the class from the context, or derives it
from the stream, where the names and types of the fields are. The reader finds a field through
the definition and the table of positions. If the class of the reader has another version than
the stream, it is a `MorphingPortableReader`.

The input is read at a position that every field sets anew. A position below zero comes from a
broken stream only, and the next access would be outside of the buffer; it counts as undefined.
-/

namespace HazelcastClient.Serialization.Portable

open Compact (Name)

open ByteParser

abbrev Input := Parser Failure

/-- Reads with a context, which may change. -/
def Reading (T : Type) := Context → List UInt8 → ℕ → Result (T × Context × ℕ)

namespace Reading

variable {T U : Type}

instance : Monad Reading where
  pure v := fun ctx _ pos => .ok (v, ctx, pos)
  bind p f := fun ctx data pos => (p ctx data pos).bind fun r => f r.1 r.2.1 data r.2.2

def lift (p : Input T) : Reading T := fun ctx data pos =>
  (p data pos).map fun r => (r.1, ctx, r.2)

def fail (e : Error) : Reading T := fun _ _ _ => .error (.thrown e)

def onContext (f : Context → Result (T × Context)) : Reading T := fun ctx _ pos =>
  (f ctx).map fun r => (r.1, r.2, pos)

end Reading

/-- A method of `data_input`. -/
def ofInput {T : Type} (p : Compact.Input T) : Input T := fun data pos => ofStream (p data pos)

/-- `data_input::position(int)`. -/
def seek (position : ℤ) : Input Unit := fun data pos =>
  if position < 0 then .error (.stream .undefined)
  else if pos < position.toNat ∧ data.length < position.toNat then
    .error (.stream (.thrown (.notEnoughBytes (data.length - pos) (position.toNat - pos))))
  else .ok ((), position.toNat)

/-- `data_input::position()`. -/
def position : Input ℕ := fun _ pos => .ok (pos, pos)

section Streams

variable (order : ByteOrder)

def readInt32 : Input Int32 := ofInput (Compact.readInt32 order)

/-- `read<int16_t>`. -/
def readInt16 : Input ℤ := do
  let v ← ofInput (readChar16 order)
  pure v.toInt

def readBool : Input Bool := ofInput (Compact.readPrimitive order .boolean)

end Streams

/-- `PortableReaderBase`, with the choice between the two readers. -/
structure Reader where
  cd : ClassDefinition
  finalPosition : Int32
  offset : ℕ
  isDefault : Bool
  raw : Bool := false

def Item.default : (i : Item) → i.Val
  | .primitive .boolean => false
  | .primitive (.numeric _) => 0
  | .char => 0
  | .string => []

def Simple.default : (s : Simple) → s.Val
  | .single i => i.default
  | .char16 => 0
  | .array _ => none

namespace Reader

variable (order : ByteOrder)

/-- An exception in the header is thrown again as another one. -/
def header {T : Type} (p : Input T) : Input T := fun data pos =>
  (p data pos).mapError fun
    | .stream (.thrown e) => .thrown (.brokenHeader e)
    | e => e

def new (cd : ClassDefinition) (isDefault : Bool) : Input Reader := do
  let finalPosition ← header (readInt32 order)
  let fieldCount ← header (readInt32 order)
  if fieldCount.toInt ≠ cd.getFieldCount then
    .fail (.thrown (.fieldCount fieldCount cd.getFieldCount))
  else
    let offset ← position
    pure { cd := cd, finalPosition := finalPosition, offset := offset, isDefault := isDefault }

def follow (index : ℕ) : Input ℤ := do
  seek index
  let pos ← readInt32 order
  seek pos.toInt
  pure pos.toInt

def setPosition (r : Reader) (fieldName : Name) (type : FieldType) : Input Unit := do
  if r.raw then .fail (.thrown .readAfterRaw) else
    match r.cd.find fieldName with
    | none => .fail (.thrown (.missingField fieldName))
    | some fd =>
      if fd.type ≠ type then .fail (.thrown (.fieldTypeMismatch fieldName)) else
        let pos ← follow order (r.offset + fd.index * 4)
        let len ← readInt16 order
        seek (pos + 2 + len + 1)

/-- `PortableReaderBase::read`. -/
def readBase (r : Reader) (fieldName : Name) (s : Simple) : Input s.Val := do
  r.setPosition order fieldName s.fieldType
  ofInput (readSimple order s)

section Morphing

/-- `read_morphing<int16_t>`; a `byte` is not negative. -/
def morphShort (r : Reader) (current : FieldType) (fieldName : Name) : Input (BitVec 16) :=
  match current with
  | .byte => do
    let v ← r.readBase order fieldName (.single (.primitive (.numeric .int8)))
    pure (BitVec.setWidth 16 v)
  | .short => r.readBase order fieldName (.single (.primitive (.numeric .int16)))
  | _ => .fail (.thrown .incompatibleClassChange)

/-- `read_morphing<int32_t>`; a `char` is a signed number of eight bits. -/
def morphInt (r : Reader) (current : FieldType) (fieldName : Name) : Input (BitVec 32) :=
  match current with
  | .int => r.readBase order fieldName (.single (.primitive (.numeric .int32)))
  | .char => do
    let v ← r.readBase order fieldName (.single .char)
    pure (BitVec.signExtend 32 v)
  | current => do
    let v ← r.morphShort order current fieldName
    pure (BitVec.signExtend 32 v)

/-- `read_morphing<int64_t>`. -/
def morphLong (r : Reader) (current : FieldType) (fieldName : Name) : Input (BitVec 64) :=
  match current with
  | .long => r.readBase order fieldName (.single (.primitive (.numeric .int64)))
  | current => do
    let v ← r.morphInt order current fieldName
    pure (BitVec.signExtend 64 v)

/-- `read_morphing<float>`. -/
def morphFloat (r : Reader) (current : FieldType) (fieldName : Name) : Input (BitVec 32) :=
  match current with
  | .float => r.readBase order fieldName (.single (.primitive (.numeric .float32)))
  | current => do
    let v ← r.morphInt order current fieldName
    pure (Float32.ofInt v.toInt).toBits.toBitVec

/-- `read_morphing<double>`. -/
def morphDouble (r : Reader) (current : FieldType) (fieldName : Name) : Input (BitVec 64) :=
  match current with
  | .double => r.readBase order fieldName (.single (.primitive (.numeric .float64)))
  | .float => do
    let v ← r.readBase order fieldName (.single (.primitive (.numeric .float32)))
    pure (Float32.ofBits (.ofBitVec v)).toFloat.toBits.toBitVec
  | current => do
    let v ← r.morphLong order current fieldName
    pure (Float.ofInt v.toInt).toBits.toBitVec

end Morphing

/-- `MorphingPortableReader::read` of a field of the definition. -/
def morph (r : Reader) (current : FieldType) (fieldName : Name) : (s : Simple) → Input s.Val
  | .single (.primitive (.numeric .int16)) => r.morphShort order current fieldName
  | .single (.primitive (.numeric .int32)) => r.morphInt order current fieldName
  | .single (.primitive (.numeric .int64)) => r.morphLong order current fieldName
  | .single (.primitive (.numeric .float32)) => r.morphFloat order current fieldName
  | .single (.primitive (.numeric .float64)) => r.morphDouble order current fieldName
  | s => r.readBase order fieldName s

def read (r : Reader) (fieldName : Name) (s : Simple) : Input s.Val :=
  if r.isDefault then r.readBase order fieldName s
  else
    match r.cd.find fieldName with
    | none => pure s.default
    | some fd => r.morph order fd.type fieldName s

def checkFactoryAndClass (fd : FieldDefinition) (factoryId classId : Int32) : Input Unit :=
  if factoryId ≠ fd.factoryId then
    .fail (.thrown (.invalidFactoryId fd.factoryId factoryId))
  else if classId ≠ fd.classId then
    .fail (.thrown (.invalidClassId fd.classId classId))
  else pure ()

def readIds (r : Reader) (fieldName : Name) : Input (Int32 × Int32) := do
  let factoryId ← readInt32 order
  let classId ← readInt32 order
  match r.cd.getField fieldName with
  | .error e => .fail e
  | .ok fd => do
    checkFactoryAndClass fd factoryId classId
    pure (factoryId, classId)

def getRawDataInput (r : Reader) : Input Reader := do
  if r.raw then pure r else
    let _ ← follow order (r.offset + r.cd.getFieldCount * 4)
    pure { r with raw := true }

section Nested

variable {Ty : Type} {R : Ty → Type} (nested : (t : Ty) → Int32 → Int32 → Reading (R t))

/-- `get_portable_instance`. -/
def readPortable (r : Reader) (fieldName : Name) (t : Ty) : Reading (Option (R t)) := do
  .lift (r.setPosition order fieldName .portable)
  let isNull ← .lift (readBool order)
  let (factoryId, classId) ← .lift (r.readIds order fieldName)
  if isNull then pure none
  else
    let portable ← nested t factoryId classId
    pure (some portable)

/-- The loop over the objects of an array; `index` is the entry of the next one. -/
def readElements (t : Ty) (factoryId classId : Int32) : ℕ → ℕ → Reading (List (R t))
  | 0, _ => pure []
  | n + 1, index => do
    let _ ← .lift (follow order index)
    let portable ← nested t factoryId classId
    let portables ← readElements t factoryId classId n (index + 4)
    pure (portable :: portables)

/-- `read_portable_array`; the two readers do the same. -/
def readPortableArray (r : Reader) (fieldName : Name) (t : Ty) :
    Reading (Option (List (R t))) := do
  .lift (r.setPosition order fieldName .portableArray)
  let _ ← .lift (readInt32 order)
  .lift (r.setPosition order fieldName .portableArray)
  let len ← .lift (readInt32 order)
  if len = -1 then pure none
  else
    let (factoryId, classId) ← .lift (r.readIds order fieldName)
    let offset ← .lift position
    let portables ← readElements order nested t factoryId classId len.toInt.toNat offset
    pure (some portables)

def readField (r : Reader) (fieldName : Name) : (k : Kind Ty) → Reading (k.Val R)
  | .simple s => .lift (r.read order fieldName s)
  | .portable t _ => r.readPortable order nested fieldName t
  | .portableArray t => r.readPortableArray order nested fieldName t

def readFields (r : Reader) : (fields : List (Name × Kind Ty)) → Reading (Values R fields)
  | [] => pure ()
  | (name, k) :: fields => do
    let v ← r.readField order nested name k
    let values ← r.readFields fields
    pure (v, values)

end Nested

def readRaw : (ss : List Simple) → Input (RawValues ss)
  | [] => pure ()
  | s :: ss => do
    let v ← ofInput (readSimple order s)
    let values ← readRaw ss
    pure (v, values)

/-- A serializer that has raw data asks for the input first. -/
def readRawData (r : Reader) : (raw : Option (List Simple)) → Input (RawValues (raw.getD []))
  | none => pure ()
  | some ss => do
    let _ ← r.getRawDataInput order
    readRaw order ss

end Reader

/-! ## Definitions from the stream -/

section Discovery

variable (order : ByteOrder)

/-- The name and the type of a field. The name is read as a C string, which ends at the first
zero byte. -/
def readHeader : Input (Name × FieldType) := do
  let len ← readInt16 order
  if len < 0 then .fail (.stream .lengthError) else
    let chars ← ofInput (Compact.readBytes len.toNat)
    let type ← ofInput Compact.readByte
    pure (chars.takeWhile (fun b => decide (b ≠ 0)), .ofByte type)

section Nested

/- `readNested` derives and registers the definition of the class of a nested object. -/
variable (readNested : Int32 → Int32 → Int32 → Reading ClassDefinition) (version : Int32)

/-- Whether the class is still to be registered, and the ids and the version of a field with a
nested object. -/
def readPortableTarget (shouldRegister : Bool) : Reading (Bool × Int32 × Int32 × Int32) := do
  let isNull ← .lift (readBool order)
  let factoryId ← .lift (readInt32 order)
  let classId ← .lift (readInt32 order)
  if shouldRegister && !isNull then do
    let fieldVersion ← .lift (readInt32 order)
    let _ ← readNested factoryId classId fieldVersion
    pure (true, factoryId, classId, fieldVersion)
  else pure (false, factoryId, classId, version)

def readArrayTarget (shouldRegister : Bool) : Reading (Bool × Int32 × Int32 × Int32) := do
  let k ← .lift (readInt32 order)
  if 0 < k then do
    let factoryId ← .lift (readInt32 order)
    let classId ← .lift (readInt32 order)
    let p ← .lift (readInt32 order)
    .lift (seek p.toInt)
    let fieldVersion ← .lift (readInt32 order)
    let _ ← readNested factoryId classId fieldVersion
    pure (shouldRegister, factoryId, classId, fieldVersion)
  else pure (false, 0, 0, version)

def readTarget (type : FieldType) (shouldRegister : Bool) :
    Reading (Bool × Int32 × Int32 × Int32) :=
  match type with
  | .portable => readPortableTarget order readNested version shouldRegister
  | .portableArray => readArrayTarget order readNested version shouldRegister
  | _ => pure (shouldRegister, 0, 0, version)

/-- Whether the class is still to be registered, and the definition of one field. -/
def readFieldDefinition (offset i : ℕ) (shouldRegister : Bool) :
    Reading (Bool × FieldDefinition) := do
  let _ ← .lift (Reader.follow order (offset + i * 4))
  let (name, type) ← .lift (readHeader order)
  let (shouldRegister, factoryId, classId, fieldVersion) ←
    readTarget order readNested version type shouldRegister
  pure (shouldRegister, ⟨i, name, type, factoryId, classId, fieldVersion⟩)

/-- The loop over the fields; `defs` are those that the builder has. -/
def readFieldDefinitions (offset : ℕ) :
    ℕ → Bool → List FieldDefinition → Reading (Bool × List FieldDefinition)
  | 0, shouldRegister, defs => pure (shouldRegister, defs)
  | n + 1, shouldRegister, defs => do
    let (shouldRegister, fd) ←
      readFieldDefinition order readNested version offset defs.length shouldRegister
    let defs ← .onContext fun ctx => (addField defs fd).map fun defs => (defs, ctx)
    readFieldDefinitions offset n shouldRegister defs

end Nested

/-- `read_class_definition` for a stream with at most so many levels of nested objects. -/
def readClassDefinition : ℕ → Int32 → Int32 → Int32 → Reading ClassDefinition
  | 0, _, _, _ => .lift (.fail (.stream .undefined))
  | levels + 1, factoryId, classId, version => do
    let _ ← .lift (readInt32 order)
    let fieldCount ← .lift (readInt32 order)
    let offset ← .lift position
    let (shouldRegister, defs) ← readFieldDefinitions order (readClassDefinition levels) version
      offset fieldCount.toInt.toNat true []
    let cd := ClassDefinition.build factoryId classId version defs
    if shouldRegister then .onContext fun ctx => ctx.registerClassDefinition cd else pure cd

end Discovery

/-! ## Objects -/

section Objects

variable (order : ByteOrder) {Ty : Type} (cls : Ty → Class Ty)

def findPortableVersion (t : Ty) (factoryId classId : Int32) (ctx : Context) :
    Result (Int32 × Context) :=
  let currentVersion := ctx.getClassVersion factoryId classId
  if currentVersion < 0 then
    let currentVersion := (cls t).getVersion ctx.version
    if h : 0 < currentVersion then
      (ctx.setClassVersion factoryId classId currentVersion h).map fun ctx => (currentVersion, ctx)
    else .ok (currentVersion, ctx)
  else .ok (currentVersion, ctx)

def createReader (levels : ℕ) (factoryId classId version portableVersion : Int32) :
    Reading Reader := fun ctx =>
  let effectiveVersion := if version < 0 then ctx.version else version
  let isDefault := decide (effectiveVersion = portableVersion)
  match ctx.lookup factoryId classId effectiveVersion with
  | some cd => Reading.lift (Reader.new order cd isDefault) ctx
  | none =>
    (do
      let start ← .lift position
      let cd ← readClassDefinition order levels factoryId classId effectiveVersion
      .lift (seek start)
      .lift (Reader.new order cd isDefault) : Reading Reader) ctx

/-- `hz_serializer<T>::read_portable`, and `end()`. -/
def readBody {R : Ty → Type} (nested : (t : Ty) → Int32 → Int32 → Reading (R t)) (t : Ty)
    (r : Reader) : Reading (Obj cls R t) := do
  let values ← r.readFields order nested (cls t).fields
  let raw ← .lift (r.readRawData order (cls t).raw)
  .lift (seek r.finalPosition.toInt)
  pure ⟨values, raw⟩

/-- `PortableSerializer::read`, where `levels` is the number of levels below the object. -/
def readObject {R : Ty → Type} (levels : ℕ)
    (nested : (t : Ty) → Int32 → Int32 → Reading (R t)) (t : Ty) (factoryId classId : Int32) :
    Reading (Obj cls R t) := do
  let version ← .lift (readInt32 order)
  let portableVersion ← .onContext (findPortableVersion cls t factoryId classId)
  let r ← createReader order (levels + 1) factoryId classId version portableVersion
  readBody order cls nested t r

/-- `PortableSerializer::read` for objects of `n` levels. -/
def reading : (n : ℕ) → (t : Ty) → Int32 → Int32 → Reading (Nested cls n t)
  | 0, _, _, _ => .lift (.fail (.stream .undefined))
  | n + 1, t, factoryId, classId => readObject order cls n (reading n) t factoryId classId

/-- `PortableSerializer::read_object`. -/
def read (n : ℕ) (t : Ty) : Reading (Nested cls n t) := do
  let factoryId ← .lift (readInt32 order)
  let classId ← .lift (readInt32 order)
  if factoryId ≠ (cls t).factoryId ∨ classId ≠ (cls t).classId then
    .fail (.unexpectedObject factoryId classId (cls t).factoryId (cls t).classId)
  else reading order cls n t factoryId classId

end Objects

end HazelcastClient.Serialization.Portable
