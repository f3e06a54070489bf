import HazelcastClient.Protocol.ClientMessage
import HazelcastClient.Util.ByteBuffer

/-!
# From the read buffer to client messages

`fillMessageFrom` moves the bytes of the read buffer into the message that is
being received, frame by frame, and remembers how much of the last frame is
still missing. `onData` hands a complete message to the connection, or puts it
together with the other fragments of its fragmentation id. `ReadHandler.handle`
runs `onData` over the whole buffer after every read of the socket.

The loops carry fuel. It is chosen from the state so that it only runs out when
an iteration has consumed nothing, that is, when the loop of the source does not
end; the result is then `Fault.diverges`.
-/

namespace HazelcastClient.Protocol

open LittleEndian

open Util (ByteBuffer)

/-- `frame_len` of the header at the front of `header`, a signed 32-bit field
converted to `size_t`. -/
def frameLen (header : List UInt8) : ℕ :=
  (toSigned 4 (leNat (header.take 4)) % SIZE_T_MODULUS).toNat

/-- `flags` of the header at the front of `header`. -/
def frameFlags (header : List UInt8) : ℕ :=
  leNat ((header.drop FLAGS_FIELD_OFFSET).take 2)

/-- The message, the buffer and the two reference arguments of
`fill_message_from`. -/
structure Fill where
  message : ClientMessage
  buffer : ByteBuffer
  isFinal : Bool
  remainingBytesInFrame : ℕ

/-- The `while` loop of `fill_message_from`. -/
def fillFrames : ℕ → Fill → Except Fault Fill
  | 0, _ => .error .diverges
  | fuel + 1, s =>
    if s.remainingBytesInFrame = 0 ∧ s.isFinal = false ∧
        SIZE_OF_FRAME_LENGTH_AND_FLAGS ≤ s.buffer.remaining then
      -- start of the frame here
      let len := frameLen s.buffer.unread
      let read := s.buffer.readBytes (min len s.buffer.remaining) (min_le_right _ _)
      match s.message.wrPtr len read.1 with
      | .error e => .error e
      | .ok m =>
        fillFrames fuel
          { message := m
            buffer := read.2
            isFinal := isFlagSet (frameFlags s.buffer.unread) IS_FINAL_FLAG
            remainingBytesInFrame := len - min len s.buffer.remaining }
    else .ok s

def fillMessageFrom (s : Fill) : Except Fault Fill :=
  if s.remainingBytesInFrame = 0 then fillFrames (s.buffer.remaining + 1) s
  else
    let bytesToRead := min s.remainingBytesInFrame s.buffer.remaining
    let read := s.buffer.readBytes bytesToRead (min_le_right _ _)
    match s.message.wrPtr bytesToRead read.1 with
    | .error e => .error e
    | .ok m =>
      let s' : Fill :=
        { message := m
          buffer := read.2
          isFinal := s.isFinal
          remainingBytesInFrame := s.remainingBytesInFrame - bytesToRead }
      if 0 < s'.remainingBytesInFrame ∨ s.isFinal = true then .ok s'
      else fillFrames (s'.buffer.remaining + 1) s'

/-! ## The steps of `fill_message_from` -/

namespace Fill

/-- The condition of the loop over the frames. -/
def Starts (s : Fill) : Prop :=
  s.remainingBytesInFrame = 0 ∧ s.isFinal = false ∧
    SIZE_OF_FRAME_LENGTH_AND_FLAGS ≤ s.buffer.remaining
  deriving Decidable

/-- Moves what there is of the `n` bytes that are left of a frame. -/
def take (s : Fill) (bytesToReserve n : ℕ) (isFinal : Bool) : Except Fault Fill :=
  let read := s.buffer.readBytes (min n s.buffer.remaining) (min_le_right _ _)
  (s.message.wrPtr bytesToReserve read.1).map fun m =>
    ⟨m, read.2, isFinal, n - min n s.buffer.remaining⟩

/-- An iteration of this loop. -/
def next (s : Fill) : Except Fault Fill :=
  s.take (frameLen s.buffer.unread) (frameLen s.buffer.unread)
    (isFlagSet (frameFlags s.buffer.unread) IS_FINAL_FLAG)

/-- What comes before the loop: the rest of a frame that has begun. -/
def entry (s : Fill) : Except Fault Fill :=
  if s.remainingBytesInFrame = 0 then .ok s
  else s.take (min s.remainingBytesInFrame s.buffer.remaining) s.remainingBytesInFrame s.isFinal

end Fill

variable {s : Fill} {fuel : ℕ}

theorem fillFrames_succ : fillFrames (fuel + 1) s =
    if s.Starts then s.next.bind (fillFrames fuel) else .ok s := by
  rw [fillFrames]
  refine if_congr Iff.rfl ?_ rfl
  simp only [Fill.next, Fill.take]
  cases s.message.wrPtr _ _ <;> rfl

theorem fillMessageFrom_eq :
    fillMessageFrom s = s.entry.bind fun s' => fillFrames (s'.buffer.remaining + 1) s' := by
  unfold fillMessageFrom Fill.entry
  split_ifs with hwhole
  · rfl
  · simp only [Fill.take]
    cases s.message.wrPtr _ _ with
    | error e => rfl
    | ok m =>
      dsimp only [Except.map, Except.bind]
      split_ifs with hmore
      · rw [fillFrames_succ, if_neg]
        rintro ⟨hzero, hfinal, -⟩
        rcases hmore with hpos | htrue
        · exact absurd hzero (Nat.pos_iff_ne_zero.mp hpos)
        · simp [htrue] at hfinal
      · rfl

theorem fillFrames_of_not_starts (h : ¬ s.Starts) (hfuel : 0 < fuel) :
    fillFrames fuel s = .ok s := by
  obtain ⟨fuel, rfl⟩ : ∃ k, fuel = k + 1 := ⟨fuel - 1, by omega⟩
  rw [fillFrames_succ, if_neg h]

/-! ## Complete messages -/

/-- `partial_messages_`. -/
abbrev MessageMap := ℤ → Option ClientMessage

/-- What becomes of a complete message: the message that stays in `message_`,
the partial messages, and the messages given to `handle_client_message`. -/
structure Accepted where
  message : Option ClientMessage
  partialMessages : MessageMap
  handled : List ClientMessage

/-- `append_existing_partial_message`. A fragment of an unknown id stays in
`message_`: the `assert(0)` of that branch is compiled out. -/
def appendExistingPartialMessage (partialMessages : MessageMap) (fragmentationId : ℤ)
    (msg : ClientMessage) (isEndFragment : Bool) : Accepted :=
  match partialMessages fragmentationId with
  | none => ⟨some msg, partialMessages, []⟩
  | some found =>
    let whole := found.append msg
    if isEndFragment then
      ⟨none, Function.update partialMessages fragmentationId none, [whole.wrapForRead]⟩
    else
      ⟨none, Function.update partialMessages fragmentationId (some whole), []⟩

/-- The branch of `on_data` for a message that is complete. -/
def acceptMessage (partialMessages : MessageMap) (complete : ClientMessage) :
    Except Fault Accepted := do
  let m := complete.wrapForRead
  let flags ← m.getHeaderFlags
  if isFlagSet flags UNFRAGMENTED_MESSAGE then
    .ok ⟨none, partialMessages, [m]⟩
  else
    let skipped := m.rdPtr FRAGMENTATION_ID_OFFSET
    let _ ← skipped.1
    let read := skipped.2.rdPtr INT64_SIZE
    let idBytes ← read.1
    let fragmentationId := toSigned 8 (leNat idBytes)
    let flags ← read.2.getHeaderFlags
    let m ← read.2.dropFragmentationFrame
    if isFlagSet flags BEGIN_FRAGMENT_FLAG then
      .ok ⟨none, Function.update partialMessages fragmentationId (some m), []⟩
    else
      .ok (appendExistingPartialMessage partialMessages fragmentationId m
        (isFlagSet flags END_FRAGMENT_FLAG))

structure ClientMessageBuilder where
  partialMessages : MessageMap := fun _ => none
  message : Option ClientMessage := none
  isFinalFrame : Bool := false
  remainingFrameBytes : ℕ := 0

/-- The result of `on_data` and the state it leaves. -/
structure OnData where
  isCompleted : Bool
  builder : ClientMessageBuilder
  buffer : ByteBuffer
  handled : List ClientMessage

namespace ClientMessageBuilder

/-- The arguments of `fill_message_from`: a fresh message when there is none. -/
def fillArgs (bd : ClientMessageBuilder) (b : ByteBuffer) : Fill :=
  match bd.message with
  | none => ⟨{}, b, false, 0⟩
  | some m => ⟨m, b, bd.isFinalFrame, bd.remainingFrameBytes⟩

def onData (bd : ClientMessageBuilder) (b : ByteBuffer) : Except Fault OnData :=
  match fillMessageFrom (bd.fillArgs b) with
  | .error e => .error e
  | .ok s =>
    if s.isFinal = true ∧ s.remainingBytesInFrame = 0 then
      match acceptMessage bd.partialMessages s.message with
      | .error e => .error e
      | .ok a =>
        .ok ⟨true, ⟨a.partialMessages, a.message, true, 0⟩, s.buffer, a.handled⟩
    else
      .ok ⟨false, ⟨bd.partialMessages, some s.message, s.isFinal, s.remainingBytesInFrame⟩,
        s.buffer, []⟩

/-- The bytes held back in `message_`. -/
def pendingBytes (bd : ClientMessageBuilder) : ℕ := (bd.message.map ClientMessage.size).getD 0

end ClientMessageBuilder

/-- `ReadHandler` with the messages it has handed to `handle_client_message`. -/
structure ReadHandler where
  byteBuffer : ByteBuffer
  builder : ClientMessageBuilder := {}
  delivered : List ClientMessage := []

namespace ReadHandler

/-- The `while` loop of `handle`. -/
def drain : ℕ → ReadHandler → Except Fault ReadHandler
  | 0, _ => .error .diverges
  | fuel + 1, h =>
    if h.byteBuffer.hasRemaining = true then
      match h.builder.onData h.byteBuffer with
      | .error e => .error e
      | .ok r =>
        let h' : ReadHandler := ⟨r.buffer, r.builder, h.delivered ++ r.handled⟩
        if r.isCompleted = true then drain fuel h' else .ok h'
    else .ok h

def handle (h : ReadHandler) : Except Fault ReadHandler :=
  if h.byteBuffer.position = 0 then .ok h
  else
    let flipped := { h with byteBuffer := h.byteBuffer.flip }
    match flipped.drain (flipped.byteBuffer.remaining + h.builder.pendingBytes + 1) with
    | .error e => .error e
    | .ok h' =>
      match h'.byteBuffer.rewind with
      | none => .error .undefinedBehaviour
      | some b => .ok { h' with byteBuffer := b }

/-- The completion of one `async_read_some` that stored `chunk` in the buffer. -/
def socketRead (h : ReadHandler) (chunk : List UInt8) : Except Fault ReadHandler :=
  if fit : chunk.length ≤ h.byteBuffer.remaining then
    handle { h with byteBuffer := h.byteBuffer.store chunk fit }
  else .error .undefinedBehaviour

/-- A run of `do_read` over the chunks that the socket delivers. -/
def readAll : ReadHandler → List (List UInt8) → Except Fault ReadHandler
  | h, [] => .ok h
  | h, chunk :: chunks =>
    match h.socketRead chunk with
    | .error e => .error e
    | .ok h' => readAll h' chunks

/-- Every read that the handler comes to, with its size. -/
def EachRead (P : ReadHandler → ℕ → Prop) : ReadHandler → List (List UInt8) → Prop
  | _, [] => True
  | h, chunk :: chunks =>
    P h chunk.length ∧ ∀ h', h.socketRead chunk = .ok h' → EachRead P h' chunks

instance decidableEachRead (P : ReadHandler → ℕ → Prop) [∀ h n, Decidable (P h n)] :
    ∀ (h : ReadHandler) (chunks : List (List UInt8)), Decidable (h.EachRead P chunks)
  | _, [] => isTrue trivial
  | h, chunk :: chunks =>
    if hle : P h chunk.length then
      match hr : h.socketRead chunk with
      | .error _ => isTrue ⟨hle, fun _ hok => by rw [hr] at hok; cases hok⟩
      | .ok h' =>
        match decidableEachRead P h' chunks with
        | isTrue hfit => isTrue ⟨hle, fun _ hok => by rw [hr] at hok; cases hok; exact hfit⟩
        | isFalse hfit => isFalse fun hall => hfit (hall.2 h' hr)
    else isFalse fun hall => hle hall.1

/-- The socket never delivers more than the free space of the read buffer. -/
def ReadsFit (h : ReadHandler) (chunks : List (List UInt8)) : Prop :=
  h.EachRead (fun h n => n ≤ h.byteBuffer.remaining) chunks
  deriving Decidable

/-- A read of `n` bytes brings the last `missing` bytes of a frame, and more bytes of the next
header than that. -/
def Overlaps (missing n : ℕ) : Prop := 0 < missing ∧ 2 * missing < n ∧ n < missing + 6
  deriving Decidable

/-- No read makes `compact` copy the part of a header onto itself. -/
def ReadsClear (h : ReadHandler) (chunks : List (List UInt8)) : Prop :=
  h.EachRead (fun h n => ¬ Overlaps h.builder.remainingFrameBytes n) chunks
  deriving Decidable

def ofCapacity (capacity : ℕ) : ReadHandler := { byteBuffer := ByteBuffer.ofCapacity capacity }

end ReadHandler

end HazelcastClient.Protocol
