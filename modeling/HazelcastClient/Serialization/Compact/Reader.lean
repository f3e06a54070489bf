import HazelcastClient.Serialization.Compact.Writer

/-!
# Reader of compact records

`compact_reader` finds the fields of a record from the schema: those of a fixed size
behind the length of the data, the others through the offsets behind the data. A method
for a primitive reads a nullable field as well, and the other way round.
-/

namespace HazelcastClient.Serialization.Compact

open ByteParser

/-- `method_suffix`. -/
def Primitive.suffix : Primitive → String
  | .boolean => "boolean"
  | .numeric .int8 => "int8"
  | .numeric .int16 => "int16"
  | .numeric .int32 => "int32"
  | .numeric .int64 => "int64"
  | .numeric .float32 => "float32"
  | .numeric .float64 => "float64"

/-- `data_input::position`, which looks at the end of the data only when it moves
forward. -/
def moveTo (data : List UInt8) (current : ℕ) (target : ℤ) : Result ℕ :=
  if target < 0 ∨ intMax < target then .error .undefined
  else if current < target ∧ data.length < target then
    .error (.thrown (.notEnoughBytes (data.length - current) (target.toNat - current)))
  else .ok target.toNat

/-- `get_offset` with `width` bytes; the largest number stands for `NULL_OFFSET`. -/
def getOffset (order : ByteOrder) (width : ℕ) (data : List UInt8) (variableOffsetsPos index : ℕ) :
    Result ℤ := do
  let pos ← toInt (variableOffsetsPos + index * width)
  let v ← readNat order width data pos
  if v.1 = 256 ^ width - 1 then .ok (-1) else .ok (UInt32.ofNat v.1).toInt32.toInt

section Arrays

variable (order : ByteOrder)

/-- The head of an array: the length of its data, the number of its items and the
position of its data. -/
structure ArrayHead where
  dataLength : ℤ
  itemCount : ℤ
  dataStartPos : ℕ

def readArrayHead (data : List UInt8) (position : ℕ) : Result ArrayHead := do
  let dataLength ← readInt32 order data position
  let itemCount ← readInt32 order data dataLength.2
  .ok ⟨dataLength.1.toInt, itemCount.1.toInt, itemCount.2⟩

/-- `offsets_position`, as an argument of `get_offset`. -/
def ArrayHead.offsetsPosition (head : ArrayHead) : ℕ :=
  toUnsigned (head.dataStartPos + head.dataLength)

/-- The loop over the offsets of an array, for `n` items from the `index`-th on; the input
is at `current`. -/
def readItems {T : Type} (p : Input T) (data : List UInt8) (head : ArrayHead) :
    ℕ → ℕ → ℕ → Result (List (Option T))
  | 0, _, _ => .ok []
  | n + 1, index, current => do
    let offset ← getOffset order (offsetWidth head.dataLength) data head.offsetsPosition index
    if offset = -1 then do
      let values ← readItems p data head n (index + 1) current
      .ok (none :: values)
    else do
      let target ← moveTo data current (offset + head.dataStartPos)
      let v ← p data target
      let values ← readItems p data head n (index + 1) v.2
      .ok (some v.1 :: values)

/-- `read_array_of_variable_size` of an array that is there. -/
def readArray {T : Type} (p : Input T) (data : List UInt8) (position : ℕ) :
    Result (List (Option T)) := do
  let head ← readArrayHead order data position
  if head.itemCount < 0 then .error .lengthError
  else readItems order p data head head.itemCount.toNat 0 head.dataStartPos

/-- The loop of `read_nullable_array_as_primitive_array`, which looks for a null item. -/
def checkItems (data : List UInt8) (head : ArrayHead) (e : Error) : ℕ → ℕ → Result Unit
  | 0, _ => .ok ()
  | n + 1, index => do
    let offset ← getOffset order (offsetWidth head.dataLength) data head.offsetsPosition index
    if offset = -1 then .error (.thrown e) else checkItems data head e n (index + 1)

end Arrays

structure Reader where
  schema : Schema
  data : List UInt8
  /-- The position of the input while no method is running. -/
  position : ℕ
  dataStartPosition : ℕ
  variableOffsetsPosition : ℕ
  /-- The width of the offsets that `get_offset` reads. -/
  width : ℕ
  deriving DecidableEq

namespace Reader

variable (order : ByteOrder)

/-- The constructor, for an input at `pos`. -/
def new (schema : Schema) (data : List UInt8) (pos : ℕ) : Result Reader :=
  if schema.numberOfVarSizeFields ≠ 0 then do
    let length ← readInt32 order data pos
    let dataLength := length.1.toUInt32.toNat
    let variableOffsetsPosition := (length.2 + dataLength) % 2 ^ 32
    let width := offsetWidth dataLength
    let finalPosition ← toInt (variableOffsetsPosition + schema.numberOfVarSizeFields * width)
    let position ← moveTo data length.2 finalPosition
    .ok
      { schema := schema
        data := data
        position := position
        dataStartPosition := length.2
        variableOffsetsPosition := variableOffsetsPosition
        width := width }
  else do
    let finalPosition ← toInt (pos + schema.fixedSizeFieldsLength)
    let position ← moveTo data pos finalPosition
    .ok
      { schema := schema
        data := data
        position := position
        dataStartPosition := pos
        variableOffsetsPosition := 0
        width := 4 }

def getFieldDescriptor (r : Reader) (fieldName : Name) : Result FieldDescriptor :=
  match r.schema.getField fieldName with
  | none => .error (.thrown (.unknownField fieldName r.schema))
  | some d => .ok d

/-- `get_field_descriptor` with a kind. -/
def getFieldDescriptorOf (r : Reader) (fieldName : Name) (kind : FieldKind) :
    Result FieldDescriptor := do
  let d ← r.getFieldDescriptor fieldName
  if d.kind ≠ kind then .error (.thrown (.unexpectedFieldKind d.kind fieldName r.schema)) else .ok d

def readVarSizePosition (r : Reader) (d : FieldDescriptor) : Result ℤ := do
  let offset ← getOffset order r.width r.data r.variableOffsetsPosition (toUnsigned d.index)
  if offset = -1 then .ok (-1) else .ok (offset + r.dataStartPosition)

/-- `read_primitive` of a field of a fixed size. -/
def readFixed (r : Reader) (d : FieldDescriptor) : (p : Primitive) → Result p.Val
  | .boolean => do
    let pos ← toInt (toSize (d.offset + r.dataStartPosition))
    let b ← readByte r.data pos
    if 0 ≤ d.bitOffset then .ok (bitOf b.1 d.bitOffset.toInt.toNat) else .error .undefined
  | .numeric n => do
    let pos ← toInt (toSize (d.offset + r.dataStartPosition))
    let v ← readPrimitive order (.numeric n) r.data pos
    .ok v.1

/-- `read_variable_size`: the position of the input is set back afterwards. -/
def readVariableSize {T : Type} (r : Reader) (d : FieldDescriptor)
    (read : List UInt8 → ℕ → Result (Option T)) : Result (Option T) := do
  let pos ← r.readVarSizePosition order d
  if pos = -1 then .ok none
  else do
    let pos ← moveTo r.data r.position pos
    read r.data pos

def present {T : Type} (p : Input T) (data : List UInt8) (pos : ℕ) : Result (Option T) := do
  let v ← p data pos
  .ok (some v.1)

def vector (p : Primitive) (data : List UInt8) (pos : ℕ) : Result (Option (List p.Val)) := do
  let v ← readVector order p data pos
  .ok v.1

def items {T : Type} (p : Input T) (data : List UInt8) (pos : ℕ) :
    Result (Option (List (Option T))) := do
  let vs ← readArray order p data pos
  .ok (some vs)

def readNullableArrayAsPrimitiveArray (r : Reader) (d : FieldDescriptor) (fieldName : Name)
    (p : Primitive) : Result (Option (List p.Val)) :=
  r.readVariableSize order d fun data pos => do
    let head ← readArrayHead order data pos
    checkItems order data head (.unexpectedNullValueInArray fieldName p.suffix)
      head.itemCount.toNat 0
    vector order p data (head.dataStartPos - 4)

def readPrimitiveArrayAsNullableArray (r : Reader) (d : FieldDescriptor) :
    (p : Primitive) → Result (Option (List (Option p.Val)))
  | .boolean =>
    r.readVariableSize order d fun data pos => do
      let values ← readBooleans order data pos
      .ok (some (values.1.map some))
  | .numeric n =>
    r.readVariableSize order d fun data pos => do
      let itemCount ← readInt32 order data pos
      if itemCount.1 < 0 then .error .lengthError
      else do
        let values ← (readPrimitive order (.numeric n)).times itemCount.1.toInt.toNat data itemCount.2
        .ok (some (values.1.map some))

/-- `read_boolean`, `read_int8`, … -/
def readPrimitiveField (r : Reader) (fieldName : Name) (p : Primitive) : Result p.Val := do
  let d ← r.getFieldDescriptor fieldName
  if d.kind = .primitive p then r.readFixed order d p
  else if d.kind = .nullable (.primitive p) then do
    let value ← r.readVariableSize order d (present (readPrimitive order p))
    match value with
    | some v => .ok v
    | none => .error (.thrown (.unexpectedNullValue fieldName p.suffix))
  else .error (.thrown (.unexpectedFieldKind d.kind fieldName r.schema))

/-- `read_nullable_boolean`, `read_nullable_int8`, … -/
def readNullablePrimitive (r : Reader) (fieldName : Name) (p : Primitive) :
    Result (Option p.Val) := do
  let d ← r.getFieldDescriptor fieldName
  if d.kind = .primitive p then do
    let v ← r.readFixed order d p
    .ok (some v)
  else if d.kind = .nullable (.primitive p) then
    r.readVariableSize order d (present (readPrimitive order p))
  else .error (.thrown (.unexpectedFieldKind d.kind fieldName r.schema))

/-- `read_array_of_boolean`, `read_array_of_int8`, … -/
def readArrayOfPrimitive (r : Reader) (fieldName : Name) (p : Primitive) :
    Result (Option (List p.Val)) := do
  let d ← r.getFieldDescriptor fieldName
  if d.kind = .arrayOf p then r.readVariableSize order d (vector order p)
  else if d.kind = .arrayOfNullable (.primitive p) then
    r.readNullableArrayAsPrimitiveArray order d fieldName p
  else .error (.thrown (.unexpectedFieldKind d.kind fieldName r.schema))

/-- `read_array_of_nullable_boolean`, `read_array_of_nullable_int8`, … -/
def readArrayOfNullable (r : Reader) (fieldName : Name) (p : Primitive) :
    Result (Option (List (Option p.Val))) := do
  let d ← r.getFieldDescriptor fieldName
  if d.kind = .arrayOf p then r.readPrimitiveArrayAsNullableArray order d p
  else if d.kind = .arrayOfNullable (.primitive p) then
    r.readVariableSize order d (items order (readPrimitive order p))
  else .error (.thrown (.unexpectedFieldKind d.kind fieldName r.schema))

def readField {R : Type} (c : Codec R) (r : Reader) (fieldName : Name) :
    (kind : FieldKind) → Result (kind.Val R)
  | .notAvailable => .error .undefined
  | .primitive p => r.readPrimitiveField order fieldName p
  | .arrayOf p => r.readArrayOfPrimitive order fieldName p
  | .nullable (.primitive p) => r.readNullablePrimitive order fieldName p
  | .nullable i => do
    let d ← r.getFieldDescriptorOf fieldName (.nullable i)
    r.readVariableSize order d (present (readItem order c i))
  | .arrayOfNullable (.primitive p) => r.readArrayOfNullable order fieldName p
  | .arrayOfNullable i => do
    let d ← r.getFieldDescriptorOf fieldName (.arrayOfNullable i)
    r.readVariableSize order d (items order (readItem order c i))

end Reader

end HazelcastClient.Serialization.Compact
