import HazelcastClient.Util.BigEndian
import HazelcastClient.Util.HashUtil

/-!
# Serialized objects

`pimpl::data`: the bytes of a serialized object and the hash that the constructor
has computed from them. The first four bytes are the partition hash, zero if there
is none, the next four the type id; both are read in big-endian order.
-/

namespace HazelcastClient.Serialization

inductive ExceptionKind
  | illegalArgument
  | hazelcastSerialization
  | io
  deriving DecidableEq

structure Exception where
  kind : ExceptionKind
  source : String
  message : String
  deriving DecidableEq

/-- The bytes of an `int32_t` in the given order. -/
def storeInt32 (order : ByteOrder) (value : Int32) : List UInt8 :=
  order.bytes 4 value.toUInt32.toNat

/-- The `int32_t` in the first four bytes of `bs`. -/
def loadInt32 (order : ByteOrder) (bs : List UInt8) : Int32 :=
  (UInt32.ofNat (order.nat (bs.take 4))).toInt32

/-- The value whose bytes are those of `value` in the opposite order. -/
def endianReverse (value : Int32) : Int32 := loadInt32 .big (storeInt32 .little value)

@[simp] theorem storeInt32_length (order : ByteOrder) (value : Int32) :
    (storeInt32 order value).length = 4 := by
  simp [storeInt32]

@[simp] theorem loadInt32_append (order : ByteOrder) (bs rest : List UInt8)
    (h : bs.length = 4) : loadInt32 order (bs ++ rest) = loadInt32 order bs := by
  rw [loadInt32, loadInt32, List.take_append_of_le_length (by omega)]

@[simp] theorem loadInt32_storeInt32 (order : ByteOrder) (value : Int32) :
    loadInt32 order (storeInt32 order value) = value := by
  have hlt : value.toUInt32.toNat < 256 ^ 4 := value.toUInt32.toNat_lt
  rw [loadInt32, List.take_of_length_le (by simp), storeInt32, order.nat_bytes 4 _ hlt,
    UInt32.ofNat_toNat]
  rfl

theorem ofNat_toInt32_eq_zero_iff (n : ℕ) (h : n < 2 ^ 32) :
    (UInt32.ofNat n).toInt32 = 0 ↔ n = 0 := by
  constructor
  · intro hzero
    have hnat : (UInt32.ofNat n).toNat = 0 :=
      congrArg (fun i : Int32 => i.toUInt32.toNat) hzero
    rwa [UInt32.toNat_ofNat', Nat.mod_eq_of_lt h] at hnat
  · rintro rfl
    rfl

/-- Zero is the only value stored as four zero bytes, and they read as zero in
either order. -/
theorem loadInt32_eq_zero_iff (order order' : ByteOrder) (value : Int32) :
    loadInt32 order (storeInt32 order' value) = 0 ↔ value = 0 := by
  have hbytes : ∀ o : ByteOrder, loadInt32 o (storeInt32 order' value) = 0 ↔
      ∀ b ∈ storeInt32 order' value, b = 0 := by
    intro o
    have hlt : o.nat (storeInt32 order' value) < 2 ^ 32 := by
      have h := o.nat_lt (storeInt32 order' value)
      rwa [storeInt32_length] at h
    rw [loadInt32, List.take_of_length_le (by simp), ofNat_toInt32_eq_zero_iff _ hlt,
      o.nat_eq_zero_iff]
  rw [hbytes order, ← hbytes order', loadInt32_storeInt32]

/-- `pimpl::data`. A moved-from object keeps its hash and has no bytes. -/
structure Data where
  bytes : List UInt8
  cachedHash : Int32
  deriving DecidableEq

namespace Data

def dataOverhead : ℕ := 8

/-- The size without the header. It is computed as an `int`, so that a buffer of `2 ^ 31`
bytes counts as empty. -/
def dataSize (bytes : List UInt8) : ℕ :=
  (max ((Int32.ofNat bytes.length).toInt - dataOverhead) 0).toNat

/-- The four bytes of the partition hash are tested as one number of the machine. -/
def hasPartitionHash (bytes : List UInt8) : Bool :=
  decide (dataOverhead ≤ bytes.length) && decide (loadInt32 .little bytes ≠ 0)

def calculateHash (bytes : List UInt8) : Int32 :=
  if dataSize bytes = 0 then 0
  else if hasPartitionHash bytes then loadInt32 .big bytes
  else Util.murmurHash3 ((bytes.drop dataOverhead).take (dataSize bytes))

def ofBuffer (buffer : List UInt8) : Except Exception Data :=
  if 0 < buffer.length ∧ buffer.length < dataOverhead then
    .error
      { kind := .illegalArgument
        source := "Data::setBuffer"
        message := "Provided buffer should be either empty or should contain more than " ++
          toString dataOverhead ++ " bytes! Provided buffer size:" ++ toString buffer.length }
  else
    .ok { bytes := buffer, cachedHash := calculateHash buffer }

def getPartitionHash (d : Data) : Int32 := d.cachedHash

def getType (d : Data) : Int32 :=
  if d.bytes.length = 0 then 0 else loadInt32 .big (d.bytes.drop 4)

/-- `std::move` of the object: what is left behind. -/
def movedFrom (d : Data) : Data := { d with bytes := [] }

theorem dataSize_of_lt {bytes : List UInt8} (h : bytes.length < 2 ^ 31) :
    dataSize bytes = bytes.length - dataOverhead := by
  rw [dataSize, Int32.toInt_ofNat_of_lt h]
  omega

theorem ofBuffer_of_le {buffer : List UInt8} (h : dataOverhead ≤ buffer.length) :
    ofBuffer buffer = .ok { bytes := buffer, cachedHash := calculateHash buffer } :=
  if_neg fun h' => Nat.not_lt.mpr h h'.2

theorem bytes_of_ofBuffer {buffer : List UInt8} {d : Data} (h : ofBuffer buffer = .ok d) :
    d.bytes = buffer := by
  unfold ofBuffer at h
  split_ifs at h
  exact (Except.ok.inj h) ▸ rfl

end Data

end HazelcastClient.Serialization
