import HazelcastClient.Serialization.BigInteger
import HazelcastClient.Serialization.Compact.Schema
import HazelcastClient.Serialization.Data
import HazelcastClient.Util.ByteParser

/-!
# Streams of compact values

The parts of `data_output`, `data_input` and `serialization_util` that compact records
use. An output is the list of the bytes written so far. An input is read at a position,
which is an `int`. Both have a byte order.

Sizes and positions of the output are of type `size_t`, and some are converted to `int`.
A conversion of a number that is too large is implementation-defined; it counts as
`undefined` here, like a sum that overflows or a shift by a negative number.
-/

namespace HazelcastClient.Serialization.Compact

open ByteParser RandomAccess

/-- The exceptions of compact serialization with the arguments of their messages. -/
inductive Error where
  | cannotWrite (requestedLength : ℕ)
  | notEnoughBytes (available requestedLength : ℕ)
  | nullString
  | negativeArraySize (len : ℤ)
  | invalidFieldName (fieldName : Name) (schema : Schema)
  | invalidFieldType (fieldName : Name) (schema : Schema)
  | unknownField (fieldName : Name) (schema : Schema)
  | unexpectedFieldKind (kind : FieldKind) (fieldName : Name) (schema : Schema)
  | unexpectedNullValue (fieldName : Name) (methodSuffix : String)
  | unexpectedNullValueInArray (fieldName : Name) (methodSuffix : String)
  | schemaNotFound (schemaId : Int64)
  deriving DecidableEq

/-- The exception that is thrown; its message is the format for the arguments. -/
def Error.exception : Error → Exception
  | .cannotWrite _ =>
    ⟨.illegalArgument, "DataOutput::checkAvailable", "Cannot write %1% bytes!"⟩
  | .notEnoughBytes _ _ =>
    ⟨.io, "DataInput::checkAvailable",
      "Not enough bytes in internal buffer. Available:%1% bytes but needed %2% bytes"⟩
  | .nullString => ⟨.io, "DataInput::read()", "Null string!!!"⟩
  | .negativeArraySize _ =>
    ⟨.hazelcastSerialization, "DataInput::readArray",
      "Incorrect negative array size found in the byte stream. The size is: %1%"⟩
  | .invalidFieldName _ _ =>
    ⟨.hazelcastSerialization, "default_compact_writer", "Invalid field name %1% for %2%"⟩
  | .invalidFieldType _ _ =>
    ⟨.hazelcastSerialization, "default_compact_writer", "Invalid field type %1% for %2%"⟩
  | .unknownField _ _ =>
    ⟨.hazelcastSerialization, "compact_reader", "Unknown field name %1% on %2% "⟩
  | .unexpectedFieldKind _ _ _ =>
    ⟨.hazelcastSerialization, "compact_reader", "Unexpected fieldKind %1% for %2% on %3%"⟩
  | .unexpectedNullValue _ _ =>
    ⟨.hazelcastSerialization, "compact_reader",
      "Error while reading %1%. null value can not be read via read_%2% methods. " ++
        "Use read_nullable_%2%  instead."⟩
  | .unexpectedNullValueInArray _ _ =>
    ⟨.hazelcastSerialization, "compact_reader",
      "Error while reading %1%. Array with null items can not be read via " ++
        "read_array_of_%2% methods. Use read_array_of_nullable_%2% instead"⟩
  | .schemaNotFound _ =>
    ⟨.hazelcastSerialization, "compact_stream_serializer::read_generic_record",
      "The schema can not be found with id %1%"⟩

/-- How an operation can end without a result: by one of the exceptions above, by the
`std::length_error` of a container, or outside of what the language defines. -/
inductive Failure where
  | thrown (e : Error)
  | lengthError
  | undefined
  deriving DecidableEq

abbrev Result := Except Failure

@[simp] theorem ok_bind {T U : Type} (a : T) (f : T → Result U) :
    ((.ok a : Result T) >>= f) = f a := rfl

@[simp] theorem error_bind {T U : Type} (e : Failure) (f : T → Result U) :
    ((.error e : Result T) >>= f) = .error e := rfl

abbrev Output := List UInt8

abbrev Input := Parser Failure

/-- The conversion of a `size_t` to an `int`. A number that does not fit wraps; what becomes of
it is not followed here. -/
def toInt (n : ℕ) : Result ℕ := if n ≤ intMax then .ok n else .error .undefined

/-- The conversion of an integer to a `size_t`. An integer that is not negative is the size
of something in memory here, or an `int`, and fits. -/
def toSize (z : ℤ) : ℕ := if 0 ≤ z then z.toNat else (z % 2 ^ 64).toNat

/-- The conversion of an integer to a `uint32_t`. -/
def toUnsigned (z : ℤ) : ℕ := (z % 2 ^ 32).toNat

section Output

variable (order : ByteOrder)

def checkAvailable (index requestedLength : ℕ) (out : Output) : Result Unit := do
  let available ← toInt (toSize (out.length - index))
  if available < requestedLength then .error (.thrown (.cannotWrite requestedLength)) else .ok ()

/-- `write_at` of a number with `width` bytes. -/
def writeAt (width value index : ℕ) (out : Output) : Result Output := do
  checkAvailable index width out
  .ok (overwrite out index (order.bytes width value))

def setBitOf (b : UInt8) (bit : ℕ) (value : Bool) : UInt8 :=
  let i := b.toBitVec.setWidth 32
  .ofBitVec ((if value then i ||| (1#32 <<< bit) else i &&& ~~~(1#32 <<< bit)).setWidth 8)

/-- `write_boolean_bit_at`; a shift of an `int` is defined for less than 32 bits. -/
def writeBooleanBitAt (index offsetInBits : ℕ) (value : Bool) (out : Output) : Result Output := do
  checkAvailable index 1 out
  if offsetInBits < 32 then
    .ok (overwrite out index [setBitOf (out.getD index 0) offsetInBits value])
  else .error .undefined

/-- `write` of a vector of bytes or of a string: the length and the bytes. -/
def writeBytes (bytes : List UInt8) (out : Output) : Result Output := do
  let len ← toInt bytes.length
  .ok (out ++ storeInt32 order (.ofNat len) ++ bytes)

end Output

section Input

variable (order : ByteOrder)

/-- Reads some bytes after `check_available`. -/
def readBytes (n : ℕ) : Input (List UInt8) := fun data pos =>
  if pos + n ≤ data.length then
    if pos + n ≤ intMax then .ok ((data.drop pos).take n, pos + n) else .error .undefined
  else .error (.thrown (.notEnoughBytes (data.length - pos) n))

def readByte : Input UInt8 := do
  let bytes ← readBytes 1
  pure (bytes.headD 0)

/-- `read` of an unsigned number with `width` bytes. -/
def readNat (width : ℕ) : Input ℕ := do
  let bytes ← readBytes width
  pure (order.nat bytes)

def readInt32 : Input Int32 := do
  let bytes ← readBytes 4
  pure (loadInt32 order bytes)

def readInt64 : Input Int64 := do
  let n ← readNat order 8
  pure (UInt64.ofNat n).toInt64

/-- `((b >> bit) & 1) != 0`. -/
def bitOf (b : UInt8) (bit : ℕ) : Bool := ((b.toBitVec.setWidth 32 >>> bit) &&& 1#32) != 0#32

end Input

structure BigDecimal where
  unscaled : ℤ
  scale : Int32
  deriving DecidableEq

structure LocalTime where
  hours : UInt8
  minutes : UInt8
  seconds : UInt8
  nanos : Int32
  deriving DecidableEq

structure LocalDate where
  year : Int32
  month : UInt8
  dayOfMonth : UInt8
  deriving DecidableEq

structure LocalDateTime where
  date : LocalDate
  time : LocalTime
  deriving DecidableEq

structure OffsetDateTime where
  dateTime : LocalDateTime
  zoneOffsetInSeconds : Int32
  deriving DecidableEq

/-- The values of a primitive; a number is given by its bits. -/
@[reducible] def Primitive.Val : Primitive → Type
  | .boolean => Bool
  | .numeric n => BitVec (8 * n.size)

/-- The values of an item, where records have the type `R`. -/
@[reducible] def Item.Val (R : Type) : Item → Type
  | .primitive p => p.Val
  | .string => List UInt8
  | .decimal => BigDecimal
  | .time => LocalTime
  | .date => LocalDate
  | .timestamp => LocalDateTime
  | .timestampWithTimezone => OffsetDateTime
  | .compact => R

structure Codec (R : Type) where
  write : R → Output → Result Output
  read : Input R

section Items

variable (order : ByteOrder) {R : Type}

def primitiveBytes : (p : Primitive) → p.Val → List UInt8
  | .boolean, b => [Bool.toUInt8 b]
  | .numeric n, v => order.bytes n.size (BitVec.toNat v)

def readPrimitive : (p : Primitive) → Input p.Val
  | .boolean => do
    let b ← readByte
    pure (b != 0)
  | .numeric n => do
    let v ← readNat order n.size
    pure (BitVec.ofNat (8 * n.size) v)

def timeBytes (v : LocalTime) : List UInt8 :=
  [v.hours, v.minutes, v.seconds] ++ storeInt32 order v.nanos

def dateBytes (v : LocalDate) : List UInt8 := storeInt32 order v.year ++ [v.month, v.dayOfMonth]

def timestampBytes (v : LocalDateTime) : List UInt8 := dateBytes order v.date ++ timeBytes order v.time

def timestampWithTimezoneBytes (v : OffsetDateTime) : List UInt8 :=
  timestampBytes order v.dateTime ++ storeInt32 order v.zoneOffsetInSeconds

def writeDecimal (v : BigDecimal) (out : Output) : Result Output := do
  let out ← writeBytes order (digits (toBytes v.unscaled)) out
  .ok (out ++ storeInt32 order v.scale)

def readTime : Input LocalTime := do
  let hour ← readByte
  let minute ← readByte
  let second ← readByte
  let nano ← readInt32 order
  pure ⟨hour, minute, second, nano⟩

def readDate : Input LocalDate := do
  let year ← readInt32 order
  let month ← readByte
  let dayOfMonth ← readByte
  pure ⟨year, month, dayOfMonth⟩

def readTimestamp : Input LocalDateTime := do
  let date ← readDate order
  let time ← readTime order
  pure ⟨date, time⟩

def readTimestampWithTimezone : Input OffsetDateTime := do
  let dateTime ← readTimestamp order
  let zoneTotalSeconds ← readInt32 order
  pure ⟨dateTime, zoneTotalSeconds⟩

/-- `read` of a `cpp_int`: a vector of the given size is read in full. -/
def readBigInteger : Input ℤ := do
  let size ← readInt32 order
  if size < 0 then .fail .lengthError else
    let bytes ← readBytes size.toInt.toNat
    pure (fromBytes (bytes.map UInt8.toInt8))

def readDecimal : Input BigDecimal := do
  let unscaled ← readBigInteger order
  let scale ← readInt32 order
  pure ⟨unscaled, scale⟩

def readString : Input (List UInt8) := do
  let charCount ← readInt32 order
  if charCount = -1 then .fail (.thrown .nullString) else readBytes (toSize charCount.toInt)

/-- `default_compact_writer::write` of a single value. -/
def writeItem (c : Codec R) : (i : Item) → i.Val R → Output → Result Output
  | .primitive p, v => fun out => .ok (out ++ primitiveBytes order p v)
  | .string, v => writeBytes order v
  | .decimal, v => writeDecimal order v
  | .time, v => fun out => .ok (out ++ timeBytes order v)
  | .date, v => fun out => .ok (out ++ dateBytes order v)
  | .timestamp, v => fun out => .ok (out ++ timestampBytes order v)
  | .timestampWithTimezone, v => fun out => .ok (out ++ timestampWithTimezoneBytes order v)
  | .compact, r => c.write r

/-- `compact_reader::read` of a single value. -/
def readItem (c : Codec R) : (i : Item) → Input (i.Val R)
  | .primitive p => readPrimitive order p
  | .string => readString order
  | .decimal => readDecimal order
  | .time => readTime order
  | .date => readDate order
  | .timestamp => readTimestamp order
  | .timestampWithTimezone => readTimestampWithTimezone order
  | .compact => c.read

end Items

section Vectors

variable (order : ByteOrder)

/-- The loop over the booleans of a vector: the bits `index`, `index + 1`, … of the byte at
`position`, and further bytes. -/
def writeBits : ℕ → ℕ → List Bool → Output → Result Output
  | _, _, [], out => .ok out
  | position, index, v :: vs, out =>
    if index = 8 then do
      let out ← writeBooleanBitAt (position + 1) 0 v (out ++ [0])
      writeBits (position + 1) 1 vs out
    else do
      let out ← writeBooleanBitAt position index v out
      writeBits position (index + 1) vs out

/-- `write` of a `std::vector<bool>`. -/
def writeBooleans (vs : List Bool) (out : Output) : Result Output := do
  let len ← toInt vs.length
  let out := out ++ storeInt32 order (.ofNat len)
  if len = 0 then .ok out else writeBits out.length 0 vs (out ++ [0])

/-- The loop that reads `n` booleans, the next one from the bit `index` of
`currentByte`. -/
def readBits : ℕ → ℕ → UInt8 → Input (List Bool)
  | 0, _, _ => pure []
  | n + 1, index, currentByte =>
    if index = 8 then do
      let currentByte ← readByte
      let values ← readBits n 1 currentByte
      pure (bitOf currentByte 0 :: values)
    else do
      let values ← readBits n (index + 1) currentByte
      pure (bitOf currentByte index :: values)

/-- `read` of a `std::vector<bool>`, or of a vector of optional booleans. -/
def readBooleans : Input (List Bool) := do
  let len ← readInt32 order
  if len = 0 then pure []
  else if len < 0 then .fail .lengthError
  else
    let currentByte ← readByte
    readBits len.toInt.toNat 0 currentByte

/-- `data_input::read` of a vector of numbers, which has no empty vectors. -/
def readNumbers (n : Numeric) : Input (Option (List (BitVec (8 * n.size)))) := do
  let len ← readInt32 order
  if len = -1 then pure none
  else if len = 0 then pure none
  else if len < 0 then .fail (.thrown (.negativeArraySize len.toInt))
  else
    let values ← (readPrimitive order (.numeric n)).times len.toInt.toNat
    pure (some values)

/-- `default_compact_writer::write` of a vector of primitives. -/
def writeVector : (p : Primitive) → List p.Val → Output → Result Output
  | .boolean, vs => writeBooleans order vs
  | .numeric n, vs => fun out => do
    let len ← toInt vs.length
    .ok (out ++ storeInt32 order (.ofNat len) ++ vs.flatMap (primitiveBytes order (.numeric n)))

/-- `compact_reader::read` of a vector of primitives. -/
def readVector : (p : Primitive) → Input (Option (List p.Val))
  | .boolean => do
    let values ← readBooleans order
    pure (some values)
  | .numeric n => readNumbers order n

end Vectors

end HazelcastClient.Serialization.Compact
