import HazelcastClient.Serialization.Compact.Stream

/-!
# Class definitions of portables

A class definition lists the fields of a version of a portable class. `PortableContext`
keeps one for each class and version that it has met, and the version of a class that the
client itself uses. The definitions are found under the class id and the lower 28 bits of
the version, as `combine_to_long` has it.
-/

namespace HazelcastClient.Serialization.Portable

open Compact (Name)

/-- `field_type`. A byte that is none of them is cast to the enumeration as well. -/
inductive FieldType where
  | portable
  | byte
  | boolean
  | char
  | short
  | int
  | long
  | float
  | double
  | string
  | portableArray
  | byteArray
  | booleanArray
  | charArray
  | shortArray
  | intArray
  | longArray
  | floatArray
  | doubleArray
  | stringArray
  | unknown (value : UInt8)
  deriving DecidableEq

namespace FieldType

def toByte : FieldType → UInt8
  | portable => 0
  | byte => 1
  | boolean => 2
  | char => 3
  | short => 4
  | int => 5
  | long => 6
  | float => 7
  | double => 8
  | string => 9
  | portableArray => 10
  | byteArray => 11
  | booleanArray => 12
  | charArray => 13
  | shortArray => 14
  | intArray => 15
  | longArray => 16
  | floatArray => 17
  | doubleArray => 18
  | stringArray => 19
  | unknown value => value

def ofByte (value : UInt8) : FieldType :=
  match value.toNat with
  | 0 => portable
  | 1 => byte
  | 2 => boolean
  | 3 => char
  | 4 => short
  | 5 => int
  | 6 => long
  | 7 => float
  | 8 => double
  | 9 => string
  | 10 => portableArray
  | 11 => byteArray
  | 12 => booleanArray
  | 13 => charArray
  | 14 => shortArray
  | 15 => intArray
  | 16 => longArray
  | 17 => floatArray
  | 18 => doubleArray
  | 19 => stringArray
  | _ => unknown value

theorem ofByte_toByte {type : FieldType} (h : ∀ value, type ≠ unknown value) :
    ofByte type.toByte = type := by
  cases type with
  | unknown value => exact absurd rfl (h value)
  | _ => rfl

end FieldType

@[ext]
structure FieldDefinition where
  index : ℕ
  name : Name
  type : FieldType
  factoryId : Int32
  classId : Int32
  version : Int32
  deriving DecidableEq

/-- `operator==`, which does not look at the index. -/
def FieldDefinition.same (fd fd' : FieldDefinition) : Bool :=
  decide (fd.name = fd'.name) && decide (fd.type = fd'.type) &&
    decide (fd.classId = fd'.classId) && decide (fd.factoryId = fd'.factoryId) &&
    decide (fd.version = fd'.version)

structure ClassDefinition where
  factoryId : Int32
  classId : Int32
  version : Int32
  fields : List FieldDefinition := []
  deriving DecidableEq

/-- The exceptions of portable serialization with the arguments of their messages. -/
inductive Error where
  | incompatibleDefinitions (cd current : ClassDefinition)
  | classVersionRegistered (classId : Int32)
  | zeroClassId
  | invalidFieldIndex (index expected : ℕ)
  | nullPortable
  | nullPointer
  | nullPortableArray
  | invalidFieldName (fieldName : Name) (classId version : Int32)
  | writeAfterRaw
  | alreadyWritten (fieldName : Name)
  | wrongFactoryId (expected actual : Int32)
  | wrongClassId (expected actual : Int32)
  | brokenHeader (e : Compact.Error)
  | fieldCount (inStream : Int32) (inDefinition : ℕ)
  | readAfterRaw
  | missingField (fieldName : Name)
  | fieldTypeMismatch (fieldName : Name)
  | invalidFactoryId (expected current : Int32)
  | invalidClassId (expected current : Int32)
  | incompatibleClassChange
  | unexpectedObject (factoryId classId expectedFactoryId expectedClassId : Int32)
  deriving DecidableEq

inductive Error.Kind where
  | illegalArgument
  | illegalState
  | hazelcastSerialization

/-- The class, the place and the message of an exception; the message is the format for the
arguments. -/
def Error.exception : Error → Error.Kind × String × String
  | .incompatibleDefinitions _ _ =>
    (.hazelcastSerialization, "ClassDefinitionContext::registerClassDefinition",
      "Incompatible class-definitions with same class-id: %1% VS %2%")
  | .classVersionRegistered _ =>
    (.illegalArgument, "ClassDefinitionContext::setClassVersion",
      "Class-id: %1% is already registered!")
  | .zeroClassId =>
    (.illegalArgument, "ClassDefinitionBuilder::addPortableField",
      "Portable class id cannot be zero!")
  | .invalidFieldIndex _ _ =>
    (.illegalArgument, "ClassDefinitionBuilder::addField",
      "Invalid field index. Index in definition:%1%, being added at index:%2%")
  | .nullPortable =>
    (.hazelcastSerialization, "ClassDefWriter::write_null_portable",
      "Cannot write null portable without explicitly registering class definition!")
  | .nullPointer =>
    (.hazelcastSerialization, "ClassDefinitionWriter::write_portable",
      "Cannot write null portable without explicitly registering class definition!")
  | .nullPortableArray =>
    (.hazelcastSerialization, "ClassDefinitionWriter::write_portableArray",
      "Cannot write null portable array without explicitly registering class definition!")
  | .invalidFieldName _ _ _ =>
    (.hazelcastSerialization, "ClassDefinition::getField",
      "Invalid field name: '%1%' for ClassDefinition \x7bid: %2%, version: %3%\x7d")
  | .writeAfterRaw =>
    (.hazelcastSerialization, "PortableWriter::setPosition",
      "Cannot write Portable fields after getRawDataOutput() is called!")
  | .alreadyWritten _ =>
    (.hazelcastSerialization, "PortableWriter::setPosition",
      "Field '%1%' has already been written!")
  | .wrongFactoryId _ _ =>
    (.hazelcastSerialization, "DefaultPortableWriter::::checkPortableAttributes",
      "Wrong Portable type! Expected factory-id: %1%, Actual factory-id: %2%")
  | .wrongClassId _ _ =>
    (.hazelcastSerialization, "DefaultPortableWriter::::checkPortableAttributes",
      "Wrong Portable type! Expected class-id: %1%, Actual class-id: %2%")
  | .brokenHeader e =>
    (.hazelcastSerialization, "[PortableReaderBase::PortableReaderBase]", e.exception.message)
  | .fieldCount _ _ =>
    (.illegalState, "[PortableReaderBase::PortableReaderBase]",
      "Field count[%1%] in stream does not match %2%")
  | .readAfterRaw =>
    (.hazelcastSerialization, "PortableReader::getPosition ",
      "Cannot read Portable fields after getRawDataInput() is called!")
  | .missingField _ =>
    (.hazelcastSerialization, "PortableReader::getPosition ", "Don't have a field named %1%")
  | .fieldTypeMismatch _ =>
    (.hazelcastSerialization, "PortableReader::getPosition ",
      "Field type did not matched for %1%")
  | .invalidFactoryId _ _ =>
    (.hazelcastSerialization, "DefaultPortableReader::checkFactoryAndClass ",
      "Invalid factoryId! Expected: %1%, Current: %2%")
  | .invalidClassId _ _ =>
    (.hazelcastSerialization, "DefaultPortableReader::checkFactoryAndClass ",
      "Invalid classId! Expected: %1%, Current: %2%")
  | .incompatibleClassChange =>
    (.hazelcastSerialization, "MorphingPortableReader::*", "IncompatibleClassChangeError")
  | .unexpectedObject _ _ _ _ =>
    (.hazelcastSerialization, "PortableSerializer::read_object",
      "Received data (factory-class id)=(%1%, %2%) does not match expected " ++
        "factory-class id (%3%, %4%)")

/-- How an operation can end without a result: in the stream, or by one of the exceptions
above. -/
inductive Failure where
  | stream (e : Compact.Failure)
  | thrown (e : Error)
  deriving DecidableEq

abbrev Result := Except Failure

namespace ClassDefinition

/-- `add_field_def`, with the name as key. -/
def addFieldDef (fields : List FieldDefinition) (fd : FieldDefinition) : List FieldDefinition :=
  if fields.any (fun old => decide (old.name = fd.name)) then
    fields.map fun old => if old.name = fd.name then fd else old
  else fields ++ [fd]

def build (factoryId classId version : Int32) (fields : List FieldDefinition) : ClassDefinition :=
  ⟨factoryId, classId, version, fields.foldl addFieldDef []⟩

def find (cd : ClassDefinition) (fieldName : Name) : Option FieldDefinition :=
  cd.fields.find? fun fd => decide (fd.name = fieldName)

def getField (cd : ClassDefinition) (fieldName : Name) : Result FieldDefinition :=
  match cd.find fieldName with
  | some fd => .ok fd
  | none => .error (.thrown (.invalidFieldName fieldName cd.classId cd.version))

def getFieldCount (cd : ClassDefinition) : ℕ := cd.fields.length

def setVersionIfNotSet (cd : ClassDefinition) (version : Int32) : ClassDefinition :=
  if cd.version < 0 then { cd with version := version } else cd

/-- `operator==`. -/
def same (cd cd' : ClassDefinition) : Bool :=
  decide (cd.factoryId = cd'.factoryId) && decide (cd.classId = cd'.classId) &&
    decide (cd.version = cd'.version) && decide (cd.fields.length = cd'.fields.length) &&
    cd.fields.all fun fd => (cd'.find fd.name).any fd.same

end ClassDefinition

def addField (fields : List FieldDefinition) (fd : FieldDefinition) :
    Result (List FieldDefinition) :=
  if fd.index = fields.length then .ok (fields ++ [fd])
  else .error (.thrown (.invalidFieldIndex fd.index fields.length))

/-- `ClassDefinitionBuilder::add_portable_field` and `add_portable_array_field`. -/
def addPortableField (fields : List FieldDefinition) (fieldName : Name) (type : FieldType)
    (cd : ClassDefinition) : Result (List FieldDefinition) :=
  if cd.classId = 0 then .error (.thrown .zeroClassId)
  else .ok (fields ++ [⟨fields.length, fieldName, type, cd.factoryId, cd.classId, cd.version⟩])

/-- `((int64_t)x) << 32 | (((int64_t)y) & 0xFFFFFFFL)`. -/
def combineToLong (x y : Int32) : ℤ := x.toInt * 2 ^ 32 + y.toInt % 2 ^ 28

/-- `PortableContext` with its `ClassDefinitionContext`s, one for each factory id. -/
structure Context where
  /-- The version that classes without a version of their own have. -/
  version : Int32
  definitions : Int32 → ℤ → Option ClassDefinition
  classVersions : Int32 → Int32 → Option Int32
  keyed : ∀ {factoryId key cd}, definitions factoryId key = some cd →
    cd.factoryId = factoryId ∧ combineToLong cd.classId cd.version = key
  versioned : ∀ {factoryId key cd}, definitions factoryId key = some cd →
    0 ≤ cd.version ∨ cd.version = version
  positive : ∀ {factoryId classId v}, classVersions factoryId classId = some v → 0 < v

namespace Context

def empty (version : Int32) : Context where
  version := version
  definitions := fun _ _ => none
  classVersions := fun _ _ => none
  keyed := fun h => by cases h
  versioned := fun h => by cases h
  positive := fun h => by cases h

def lookup (ctx : Context) (factoryId classId version : Int32) : Option ClassDefinition :=
  ctx.definitions factoryId (combineToLong classId version)

/-- `put_if_absent` of a definition. -/
def define (ctx : Context) (cd : ClassDefinition) (h : 0 ≤ cd.version ∨ cd.version = ctx.version) :
    Context where
  version := ctx.version
  definitions := fun factoryId key =>
    if factoryId = cd.factoryId ∧ key = combineToLong cd.classId cd.version then some cd
    else ctx.definitions factoryId key
  classVersions := ctx.classVersions
  keyed := by
    intro factoryId key cd' hcd
    split at hcd
    · rename_i hkey
      cases hcd
      exact ⟨hkey.1.symm, hkey.2.symm⟩
    · exact ctx.keyed hcd
  versioned := by
    intro factoryId key cd' hcd
    split at hcd
    · cases hcd
      exact h
    · exact ctx.versioned hcd
  positive := ctx.positive

theorem setVersionIfNotSet_version (cd : ClassDefinition) (version : Int32) :
    0 ≤ (cd.setVersionIfNotSet version).version ∨
      (cd.setVersionIfNotSet version).version = version := by
  unfold ClassDefinition.setVersionIfNotSet
  split
  · exact .inr rfl
  · rename_i h
    exact .inl (Int32.not_lt.mp h)

/-- `register_class_definition`, by the context of the factory of the definition. -/
def registerClassDefinition (ctx : Context) (cd : ClassDefinition) :
    Result (ClassDefinition × Context) :=
  let cd' := cd.setVersionIfNotSet ctx.version
  match ctx.lookup cd'.factoryId cd'.classId cd'.version with
  | none => .ok (cd', ctx.define cd' (setVersionIfNotSet_version cd ctx.version))
  | some current =>
    if current.same cd' then .ok (current, ctx)
    else .error (.thrown (.incompatibleDefinitions cd' current))

def getClassVersion (ctx : Context) (factoryId classId : Int32) : Int32 :=
  (ctx.classVersions factoryId classId).getD (-1)

/-- `set_class_version`, which is called with a version above zero. -/
def setClassVersion (ctx : Context) (factoryId classId version : Int32) (h : 0 < version) :
    Result Context :=
  match ctx.classVersions factoryId classId with
  | some current =>
    if current = version then .ok ctx else .error (.thrown (.classVersionRegistered classId))
  | none =>
    .ok
      { ctx with
        classVersions := fun f c =>
          if f = factoryId ∧ c = classId then some version else ctx.classVersions f c
        positive := by
          intro f c v hv
          split at hv
          · cases hv
            exact h
          · exact ctx.positive hv }

end Context

end HazelcastClient.Serialization.Portable
