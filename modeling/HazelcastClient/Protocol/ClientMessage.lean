import HazelcastClient.Util.LittleEndian
import Mathlib.Data.Nat.Bitwise

/-!
# Client messages

A `ClientMessage` keeps its bytes in a list of blocks. `wrPtr` opens a new block
when the last one has no room for the bytes it is asked to reserve, so a frame
is never split over two blocks; `peek` and `rdPtr` walk the blocks with a cursor
and throw when a read would leave the current one. Reads at a fixed offset of
the first block (`getHeaderFlags`, `getCorrelationId`) do not look at the cursor
and are undefined when that block is too short.

The faults of these operations are values of `Fault`; undefined behaviour of the
source is a fault of its own, never a silent default. Assertions are compiled
out, as in a release build.
-/

namespace HazelcastClient.Protocol

open LittleEndian

/-- The ways in which the code below does not return. -/
inductive Fault where
  /-- `hazelcast_serialization` from `peek`: "Requested n bytes but there is no
  more bytes left to read". -/
  | noMoreBytes (requested : ℕ)
  /-- `hazelcast_serialization` from `peek`: "Requested n bytes but there is not
  enough bytes left to read". -/
  | notEnoughBytes (requested : ℕ)
  /-- `std::length_error` from `std::vector::reserve`. -/
  | lengthError
  /-- An access outside a container. -/
  | undefinedBehaviour
  /-- A loop whose state repeats. -/
  | diverges
  deriving DecidableEq, Repr

def EXPECTED_DATA_BLOCK_SIZE : ℕ := 1024
def INT64_SIZE : ℕ := 8
def SIZE_OF_FRAME_LENGTH_AND_FLAGS : ℕ := 6
def FLAGS_FIELD_OFFSET : ℕ := 4
def TYPE_FIELD_OFFSET : ℕ := 6
def CORRELATION_ID_FIELD_OFFSET : ℕ := 10
def FRAGMENTATION_ID_OFFSET : ℕ := 6

def BEGIN_FRAGMENT_FLAG : ℕ := 2 ^ 15
def END_FRAGMENT_FLAG : ℕ := 2 ^ 14
def UNFRAGMENTED_MESSAGE : ℕ := 2 ^ 15 + 2 ^ 14
def IS_FINAL_FLAG : ℕ := 2 ^ 13

/-- The largest size of a `std::vector<byte>`, and the modulus of `size_t`. -/
def MAX_VECTOR_SIZE : ℕ := 2 ^ 63 - 1
def SIZE_T_MODULUS : ℕ := 2 ^ 64

def isFlagSet (flags flagMask : ℕ) : Bool := flagMask == (flags &&& flagMask)

theorem isFlagSet_two_pow (flags k : ℕ) : isFlagSet flags (2 ^ k) = flags.testBit k := by
  unfold isFlagSet
  rw [Nat.and_two_pow]
  cases h : flags.testBit k with
  | true | false => simp

/-- A `std::vector<byte>` of `data_buffer_`: its content and its capacity. -/
structure Block where
  bytes : List UInt8
  capacity : ℕ
  size_le_capacity : bytes.length ≤ capacity
  deriving DecidableEq

namespace Block

def size (b : Block) : ℕ := b.bytes.length

/-- A fresh vector after `reserve(n)`. -/
def reserve (n : ℕ) : Block := ⟨[], n, Nat.zero_le _⟩

/-- `insert` at the end. Inside the capacity nothing is reallocated. -/
def insertEnd (b : Block) (src : List UInt8) : Block :=
  ⟨b.bytes ++ src, max b.capacity (b.bytes ++ src).length, le_max_right _ _⟩

/-- The copy of a vector has no spare capacity. -/
def copy (b : Block) : Block := ⟨b.bytes, b.bytes.length, le_refl _⟩

/-- `erase(begin(), begin() + n)` for `n ≤ size()`. -/
def eraseFront (b : Block) (n : ℕ) : Block :=
  ⟨b.bytes.drop n, b.capacity, by
    have h := b.size_le_capacity
    rw [List.length_drop]
    omega⟩

@[simp] theorem insertEnd_bytes (b : Block) (src : List UInt8) :
    (b.insertEnd src).bytes = b.bytes ++ src := rfl

@[simp] theorem copy_bytes (b : Block) : b.copy.bytes = b.bytes := rfl

@[simp] theorem eraseFront_bytes (b : Block) (n : ℕ) :
    (b.eraseFront n).bytes = b.bytes.drop n := rfl

@[simp] theorem reserve_bytes (n : ℕ) : (reserve n).bytes = [] := rfl

@[simp] theorem reserve_capacity (n : ℕ) : (reserve n).capacity = n := rfl

theorem ext_fields {a b : Block} (hb : a.bytes = b.bytes) (hc : a.capacity = b.capacity) :
    a = b := by
  cases a
  cases b
  simp only at hb hc
  subst hb hc
  rfl

theorem insertEnd_capacity_of_le (b : Block) (src : List UInt8)
    (h : b.size + src.length ≤ b.capacity) :
    (b.insertEnd src).capacity = b.capacity := by
  simp only [insertEnd, List.length_append]
  exact max_eq_left h

theorem insertEnd_insertEnd (b : Block) (s t : List UInt8) :
    (b.insertEnd s).insertEnd t = b.insertEnd (s ++ t) := by
  apply ext_fields
  · simp
  · simp only [insertEnd, List.length_append]
    omega

end Block

/-- The part of `ClientMessage` that carries the bytes and the read cursor. -/
structure ClientMessage where
  dataBuffer : List Block := []
  bufferIndex : ℕ := 0
  offset : ℕ := 0
  deriving DecidableEq

namespace ClientMessage

/-- A new last block with room for `bytesToReserve` bytes that starts with `src`. -/
def emplaceBlock (bytesToReserve : ℕ) (src : List UInt8) : Block :=
  (Block.reserve (max EXPECTED_DATA_BLOCK_SIZE bytesToReserve)).insertEnd src

/-- The last block takes `bytesToReserve` further bytes without growing. -/
def fits (b : Block) (bytesToReserve : ℕ) : Prop :=
  ¬ b.capacity - b.size < bytesToReserve

instance (b : Block) (n : ℕ) : Decidable (fits b n) :=
  inferInstanceAs (Decidable (¬ _))

/-- The blocks after `wr_ptr`, with `src` stored in the region it returns. -/
def writeBlocks (blocks : List Block) (bytesToReserve : ℕ) (src : List UInt8) :
    List Block :=
  match blocks.getLast? with
  | none => [emplaceBlock bytesToReserve src]
  | some b =>
    if fits b bytesToReserve then blocks.dropLast ++ [b.insertEnd src]
    else blocks ++ [emplaceBlock bytesToReserve src]

/-- Whether `wr_ptr` has to open a block. -/
def needsBlock (blocks : List Block) (bytesToReserve : ℕ) : Bool :=
  match blocks.getLast? with
  | none => decide (0 < bytesToReserve)
  | some b => decide (¬ fits b bytesToReserve)

/-- `wr_ptr(bytes_to_reserve, actual_number_of_bytes)` together with the copy of
`src` into the region it returns. With no block and nothing to reserve it reads
the capacity of a block that does not exist. -/
def wrPtr (m : ClientMessage) (bytesToReserve : ℕ) (src : List UInt8) :
    Except Fault ClientMessage :=
  if m.dataBuffer = [] ∧ bytesToReserve = 0 then .error .undefinedBehaviour
  else if needsBlock m.dataBuffer bytesToReserve = true ∧
      MAX_VECTOR_SIZE < max EXPECTED_DATA_BLOCK_SIZE bytesToReserve then
    .error .lengthError
  else .ok { m with dataBuffer := writeBlocks m.dataBuffer bytesToReserve src }

/-- The bounds check of `peek` in the current block. -/
def peekIn (b : Block) (offset requested : ℕ) : Except Fault (List UInt8) :=
  if b.size < (offset + requested) % SIZE_T_MODULUS then .error (.notEnoughBytes requested)
  else .ok ((b.bytes.drop offset).take requested)

/-- `peek(requested_bytes)`: the bytes behind the pointer it returns, and the
cursor it leaves behind, also when it throws. -/
def peek (m : ClientMessage) (requested : ℕ) : Except Fault (List UInt8) × ClientMessage :=
  if requested = 0 then (.ok [], m)
  else
    match m.dataBuffer[m.bufferIndex]? with
    | none => (.error .undefinedBehaviour, m)
    | some b =>
      if b.size ≤ m.offset then
        match m.dataBuffer[m.bufferIndex + 1]? with
        | none => (.error (.noMoreBytes requested), { m with bufferIndex := m.bufferIndex + 1 })
        | some c =>
          (peekIn c 0 requested,
            { m with bufferIndex := m.bufferIndex + 1, offset := 0 })
      else (peekIn b m.offset requested, m)

def rdPtr (m : ClientMessage) (requested : ℕ) : Except Fault (List UInt8) × ClientMessage :=
  match m.peek requested with
  | (.error e, m') => (.error e, m')
  | (.ok bytes, m') =>
    (.ok bytes, { m' with offset := (m'.offset + requested) % SIZE_T_MODULUS })

def wrapForRead (m : ClientMessage) : ClientMessage :=
  { m with bufferIndex := 0, offset := 0 }

/-- The `n` bytes at `&data_buffer_[0][offset]`. -/
def load (m : ClientMessage) (offset n : ℕ) : Except Fault (List UInt8) :=
  match m.dataBuffer with
  | [] => .error .undefinedBehaviour
  | b :: _ =>
    if offset + n ≤ b.size then .ok ((b.bytes.drop offset).take n)
    else .error .undefinedBehaviour

def getHeaderFlags (m : ClientMessage) : Except Fault ℕ :=
  (m.load FLAGS_FIELD_OFFSET 2).map leNat

def getMessageType (m : ClientMessage) : Except Fault ℤ :=
  (m.load TYPE_FIELD_OFFSET 4).map fun bs => toSigned 4 (leNat bs)

def getCorrelationId (m : ClientMessage) : Except Fault ℤ :=
  (m.load CORRELATION_ID_FIELD_OFFSET 8).map fun bs => toSigned 8 (leNat bs)

/-- `append(msg)` copies the blocks of `msg` behind the own ones. -/
def append (m msg : ClientMessage) : ClientMessage :=
  { m with dataBuffer := m.dataBuffer ++ msg.dataBuffer.map Block.copy }

/-- `drop_fragmentation_frame` erases the first 14 bytes of the first block. -/
def dropFragmentationFrame (m : ClientMessage) : Except Fault ClientMessage :=
  match m.dataBuffer with
  | [] => .error .undefinedBehaviour
  | b :: bs =>
    if FRAGMENTATION_ID_OFFSET + INT64_SIZE ≤ b.size then
      .ok { m with
        dataBuffer := b.eraseFront (FRAGMENTATION_ID_OFFSET + INT64_SIZE) :: bs }
    else .error .undefinedBehaviour

def contents (m : ClientMessage) : List (List UInt8) := m.dataBuffer.map Block.bytes

/-- `size()`. -/
def size (m : ClientMessage) : ℕ := (m.contents.map List.length).sum

end ClientMessage

end HazelcastClient.Protocol
