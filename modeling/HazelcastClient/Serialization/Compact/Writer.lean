import HazelcastClient.Serialization.Compact.Stream

/-!
# Writer of compact records

`default_compact_writer` leaves room for the length of the data and for the fields of a
fixed size, which it fills in at random access. The other fields are appended, and their
offsets are kept aside until `end()` writes them behind the data, with one, two or four
bytes each.
-/

namespace HazelcastClient.Serialization.Compact

open RandomAccess

@[reducible] def FieldKind.Val (R : Type) : FieldKind → Type
  | .notAvailable => Empty
  | .primitive p => p.Val
  | .arrayOf p => Option (List p.Val)
  | .nullable i => Option (i.Val R)
  | .arrayOfNullable i => Option (List (Option (i.Val R)))

/-- The bytes of an offset: `BYTE_OFFSET_READER_RANGE` is 255, and
`SHORT_OFFSET_READER_RANGE` is 65535. -/
def offsetWidth (dataLength : ℤ) : ℕ :=
  if dataLength < 255 then 1 else if dataLength < 65535 then 2 else 4

structure Writer where
  schema : Schema
  out : Output
  dataStartPosition : ℕ
  fieldOffsets : List ℤ

/-- `write_zero_bytes`. -/
def zeroBytes (n : ℕ) : List UInt8 := List.replicate n 0

/-- `write_offsets`: an offset is truncated to its bytes, so that `-1` gets the largest
number. -/
def offsetBytes (order : ByteOrder) (dataLength : ℕ) (offsets : List ℤ) : List UInt8 :=
  let width := offsetWidth dataLength
  offsets.flatMap fun offset => order.bytes width (offset % 256 ^ width).toNat

section Arrays

variable (order : ByteOrder) {T : Type} (write : T → Output → Result Output)

/-- The loop over the items of an array: their offsets from `start` and the output. -/
def writeItems (start : ℕ) : List (Option T) → Output → Result (List ℤ × Output)
  | [], out => .ok ([], out)
  | none :: vs, out => do
    let rest ← writeItems start vs out
    .ok (-1 :: rest.1, rest.2)
  | some v :: vs, out => do
    let offset ← toInt (out.length - start)
    let out ← write v out
    let rest ← writeItems start vs out
    .ok ((offset : ℤ) :: rest.1, rest.2)

/-- `write_array_of_variable_size` of an array that is there. -/
def writeArray (vs : List (Option T)) (out : Output) : Result Output := do
  let dataLengthOffset := out.length
  let itemCount ← toInt vs.length
  let out := out ++ zeroBytes 4 ++ storeInt32 order (.ofNat itemCount)
  let offset := out.length
  let items ← writeItems write offset vs out
  let dataLength ← toInt (items.2.length - offset)
  let out ← writeAt order 4 dataLength dataLengthOffset items.2
  .ok (out ++ offsetBytes order dataLength items.1)

end Arrays

namespace Writer

def new (schema : Schema) (out : Output) : Writer :=
  if schema.numberOfVarSizeFields ≠ 0 then
    { schema := schema
      dataStartPosition := out.length + 4
      out := out ++ zeroBytes (schema.fixedSizeFieldsLength + 4)
      fieldOffsets := List.replicate schema.numberOfVarSizeFields 0 }
  else
    { schema := schema
      dataStartPosition := out.length
      out := out ++ zeroBytes schema.fixedSizeFieldsLength
      fieldOffsets := [] }

def checkFieldDefinition (w : Writer) (fieldName : Name) (kind : FieldKind) :
    Result FieldDescriptor :=
  match w.schema.getField fieldName with
  | none => .error (.thrown (.invalidFieldName fieldName w.schema))
  | some d => if d.kind ≠ kind then .error (.thrown (.invalidFieldType fieldName w.schema)) else .ok d

def getFixedSizeFieldPosition (w : Writer) (fieldName : Name) (kind : FieldKind) : Result ℕ := do
  let d ← w.checkFieldDefinition fieldName kind
  .ok (toSize (d.offset + w.dataStartPosition))

/-- `field_offsets[index] = offset`. -/
def setFieldOffset (w : Writer) (index offset : ℤ) : Result Writer :=
  if 0 ≤ index ∧ index < w.fieldOffsets.length then
    .ok { w with fieldOffsets := w.fieldOffsets.set index.toNat offset }
  else .error .undefined

def setPosition (w : Writer) (fieldName : Name) (kind : FieldKind) : Result Writer := do
  let d ← w.checkFieldDefinition fieldName kind
  let fieldPosition ← toInt (w.out.length - w.dataStartPosition)
  w.setFieldOffset d.index fieldPosition

def setPositionAsNull (w : Writer) (fieldName : Name) (kind : FieldKind) : Result Writer := do
  let d ← w.checkFieldDefinition fieldName kind
  w.setFieldOffset d.index (-1)

/-- `write_variable_size_field` and `write_array_of_variable_size`: an absent value has no
position, and another one is written at the end of the output. -/
def writeVariableSizeField {T : Type} (w : Writer) (fieldName : Name) (kind : FieldKind)
    (write : T → Output → Result Output) : Option T → Result Writer
  | none => w.setPositionAsNull fieldName kind
  | some value => do
    let w ← w.setPosition fieldName kind
    let out ← write value w.out
    .ok { w with out := out }

variable (order : ByteOrder)

def writeBoolean (w : Writer) (fieldName : Name) (value : Bool) : Result Writer := do
  let d ← w.checkFieldDefinition fieldName (.primitive .boolean)
  let out ← writeBooleanBitAt (toSize (d.offset + w.dataStartPosition))
    (toSize d.bitOffset.toInt) value w.out
  .ok { w with out := out }

/-- `write_int8`, `write_int16`, … and `write_float64`. -/
def writeNumber (w : Writer) (fieldName : Name) (n : Numeric) (value : BitVec (8 * n.size)) :
    Result Writer := do
  let position ← w.getFixedSizeFieldPosition fieldName (.primitive (.numeric n))
  let out ← writeAt order n.size value.toNat position w.out
  .ok { w with out := out }

def writeField {R : Type} (c : Codec R) (w : Writer) (fieldName : Name) :
    (kind : FieldKind) → kind.Val R → Result Writer
  | .primitive .boolean, value => w.writeBoolean fieldName value
  | .primitive (.numeric n), value => w.writeNumber order fieldName n value
  | .arrayOf p, value => w.writeVariableSizeField fieldName (.arrayOf p) (writeVector order p) value
  | .nullable i, value => w.writeVariableSizeField fieldName (.nullable i) (writeItem order c i) value
  | .arrayOfNullable i, value =>
    w.writeVariableSizeField fieldName (.arrayOfNullable i)
      (writeArray order (writeItem order c i)) value

/-- The function `end()`. -/
def finish (w : Writer) : Result Output :=
  if w.schema.numberOfVarSizeFields = 0 then .ok w.out
  else do
    let dataLength := w.out.length - w.dataStartPosition
    let out := w.out ++ offsetBytes order dataLength w.fieldOffsets
    let value ← toInt dataLength
    writeAt order 4 value (w.dataStartPosition - 4) out

end Writer

end HazelcastClient.Serialization.Compact
