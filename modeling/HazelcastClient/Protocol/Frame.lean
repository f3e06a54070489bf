import HazelcastClient.Protocol.ClientMessageBuilder

/-!
# Frames and their layout in blocks

A `Frame` is a byte string whose `frame_len` field tells its own length, and a
`WireMessage` a list of frames of which exactly the last one carries
`IS_FINAL_FLAG`; both carry these facts as fields. `packFrames frames` is the
list of blocks that `wr_ptr` makes of frames that arrive whole. It opens a block
when the next frame does not fit the open one, so every block is the
concatenation of consecutive frames (`packFrames_contents`).

The lemma that makes the layout independent of how the bytes arrive is
`writeBlocks_writeBlocks`: the room for a frame is reserved with its first byte,
so its later bytes land behind the earlier ones.
-/

namespace HazelcastClient.Protocol

open LittleEndian List

open ClientMessage Block

/-- A byte string with a header whose `frame_len` is its own length. -/
structure Frame where
  bytes : List UInt8
  header_le : SIZE_OF_FRAME_LENGTH_AND_FLAGS ≤ bytes.length
  frame_len : toSigned 4 (leNat (bytes.take 4)) = bytes.length
  deriving DecidableEq

namespace Frame

def size (f : Frame) : ℕ := f.bytes.length

def flags (f : Frame) : ℕ := frameFlags f.bytes

def isFinal (f : Frame) : Bool := isFlagSet f.flags IS_FINAL_FLAG

theorem six_le_size (f : Frame) : 6 ≤ f.size := f.header_le

theorem bytes_ne_nil (f : Frame) : f.bytes ≠ [] := by
  intro h
  have hle := f.header_le
  simp [h, SIZE_OF_FRAME_LENGTH_AND_FLAGS] at hle

theorem size_lt (f : Frame) : f.size < 2 ^ 31 := by
  have hlt := leNat_lt (f.bytes.take 4)
  have hlen : (f.bytes.take 4).length ≤ 4 := by simp
  have hpow : 256 ^ (f.bytes.take 4).length ≤ 256 ^ 4 :=
    Nat.pow_le_pow_right (by decide) hlen
  have hlen := f.frame_len
  unfold toSigned at hlen
  unfold size
  split at hlen <;> omega

theorem ext_bytes {f g : Frame} (h : f.bytes = g.bytes) : f = g := by
  cases f
  cases g
  simp only at h
  subst h
  rfl

section

variable {f : Frame} {u rest : List UInt8} (hu : u <+: f.bytes ++ rest)

include hu

/-- The header read from any prefix of a stream that starts with the frame, once
it is six bytes long. -/
theorem take_of_prefix {n : ℕ} (hlen : n ≤ u.length) (hn : n ≤ 6) : u.take n = f.bytes.take n := by
  have hf := f.six_le_size
  unfold size at hf
  obtain ⟨t, ht⟩ := hu
  have h := congrArg (List.take n) ht
  rwa [take_append_of_le_length hlen, take_append_of_le_length (by omega)] at h

theorem frameLen_of_prefix (hlen : 6 ≤ u.length) : frameLen u = f.size := by
  have hlt := f.size_lt
  unfold size at hlt
  rw [frameLen, take_of_prefix hu (by omega) (by omega), f.frame_len, SIZE_T_MODULUS, size]
  omega

theorem frameFlags_of_prefix (hlen : 6 ≤ u.length) : frameFlags u = f.flags := by
  have h := congrArg (List.drop 4) <| take_of_prefix hu hlen le_rfl
  rw [drop_take, drop_take] at h
  rw [flags, frameFlags, frameFlags, FLAGS_FIELD_OFFSET]
  exact congrArg leNat h

end

end Frame

def frameBytes (frames : List Frame) : List UInt8 := frames.flatMap Frame.bytes

@[simp] theorem frameBytes_nil : frameBytes [] = [] := rfl

@[simp] theorem frameBytes_cons (f : Frame) (fs : List Frame) :
    frameBytes (f :: fs) = f.bytes ++ frameBytes fs := by
  simp [frameBytes]

@[simp] theorem frameBytes_append (fs gs : List Frame) :
    frameBytes (fs ++ gs) = frameBytes fs ++ frameBytes gs := by
  simp [frameBytes]

/-- `IS_FINAL_FLAG` is set on the last frame and on no other one. -/
def Terminated : List Frame → Prop
  | [] => False
  | [f] => f.isFinal = true
  | f :: g :: fs => f.isFinal = false ∧ Terminated (g :: fs)

/-- The frames up to the next `IS_FINAL_FLAG`, what `on_data` takes for one
message. -/
structure WireMessage where
  frames : List Frame
  terminated : Terminated frames

namespace WireMessage

def bytes (M : WireMessage) : List UInt8 := frameBytes M.frames

/-- Both fragment flags are set on the first frame. -/
def Unfragmented (M : WireMessage) : Prop :=
  ∀ f ∈ M.frames.head?, isFlagSet f.flags UNFRAGMENTED_MESSAGE = true

theorem frames_ne_nil (M : WireMessage) : M.frames ≠ [] := by
  intro h
  have ht := M.terminated
  rw [h] at ht
  exact ht

end WireMessage

/-- Inside a message the flag tells whether further frames follow. -/
theorem Terminated.isFinal_of_append {pre : List Frame} {f : Frame} {post : List Frame}
    (h : Terminated (pre ++ f :: post)) : f.isFinal = post.isEmpty := by
  induction pre with
  | nil =>
    cases post with
    | nil => exact h
    | cons g post => exact h.1
  | cons a pre ih =>
    apply ih
    cases pre with
    | nil | cons b pre => exact h.2

def wire (ms : List WireMessage) : List UInt8 := ms.flatMap WireMessage.bytes

@[simp] theorem wire_nil : wire [] = [] := rfl

@[simp] theorem wire_cons (M : WireMessage) (ms : List WireMessage) :
    wire (M :: ms) = frameBytes M.frames ++ wire ms := by
  simp [wire, WireMessage.bytes]

theorem six_le_frameBytes {frames : List Frame} (h : frames ≠ []) :
    6 ≤ (frameBytes frames).length := by
  cases frames with
  | nil => exact absurd rfl h
  | cons f fs =>
    have hf := f.six_le_size
    unfold Frame.size at hf
    rw [frameBytes_cons, length_append]
    omega

/-! ## The layout of whole frames -/

/-- The blocks that result from the open block `b` and the frames that follow. -/
def packFrom (b : Block) : List Frame → List Block
  | [] => [b]
  | f :: fs =>
    if fits b f.size then packFrom (b.insertEnd f.bytes) fs
    else b :: packFrom (emplaceBlock f.size f.bytes) fs

def packFrames : List Frame → List Block
  | [] => []
  | f :: fs => packFrom (emplaceBlock f.size f.bytes) fs

theorem writeBlocks_nil (n : ℕ) (src : List UInt8) :
    writeBlocks [] n src = [emplaceBlock n src] := rfl

variable (bs : List Block) (b : Block) (fs : List Frame) {n : ℕ}

theorem writeBlocks_concat (n : ℕ) (src : List UInt8) :
    writeBlocks (bs ++ [b]) n src =
      if fits b n then bs ++ [b.insertEnd src]
      else bs ++ [b, emplaceBlock n src] := by
  simp [writeBlocks]

theorem writeBlocks_packFrom (pre : List Block) (b : Block) (fs : List Frame) (f : Frame) :
    writeBlocks (pre ++ packFrom b fs) f.size f.bytes = pre ++ packFrom b (fs ++ [f]) := by
  induction fs generalizing pre b with
  | nil =>
    rw [packFrom, writeBlocks_concat]
    simp only [nil_append, packFrom]
    split <;> rfl
  | cons g fs ih =>
    simp only [cons_append, packFrom]
    split
    · exact ih pre _
    · have h := ih (pre ++ [b]) (emplaceBlock g.size g.bytes)
      simpa using h

theorem writeBlocks_packFrames (f : Frame) :
    writeBlocks (packFrames fs) f.size f.bytes = packFrames (fs ++ [f]) := by
  cases fs with
  | nil => rfl
  | cons g fs => exact writeBlocks_packFrom [] _ fs f

theorem emplaceBlock_capacity {src : List UInt8} (h : src.length ≤ n) :
    (emplaceBlock n src).capacity = max EXPECTED_DATA_BLOCK_SIZE n := by
  apply insertEnd_capacity_of_le
  simp only [Block.size, Block.reserve_bytes, Block.reserve_capacity, length_nil]
  omega

theorem emplaceBlock_bytes (n : ℕ) (src : List UInt8) : (emplaceBlock n src).bytes = src := rfl

/-- The room of a frame is reserved with its first bytes, so the later ones are
written behind them into the same block. -/
theorem writeBlocks_writeBlocks {s t : List UInt8} (h : s.length + t.length ≤ n) :
    writeBlocks (writeBlocks bs n s) t.length t = writeBlocks bs n (s ++ t) := by
  have hnew : fits (emplaceBlock n s) t.length := by
    unfold fits
    rw [emplaceBlock_capacity (by omega)]
    simp only [Block.size, emplaceBlock_bytes]
    omega
  have hmore (m : ℕ) : (emplaceBlock m s).insertEnd t = emplaceBlock m (s ++ t) :=
    insertEnd_insertEnd _ s t
  rcases eq_nil_or_concat bs with rfl | ⟨pre, b, rfl⟩
  · rw [writeBlocks_nil, writeBlocks_nil, ← nil_append [emplaceBlock n s],
      writeBlocks_concat, if_pos hnew, hmore, nil_append]
  · rw [concat_eq_append, writeBlocks_concat, writeBlocks_concat]
    by_cases hb : fits b n
    · have hlast : fits (b.insertEnd s) t.length := by
        have hcap := b.size_le_capacity
        unfold fits Block.size at *
        rw [Block.insertEnd_capacity_of_le _ _ (by unfold Block.size; omega)]
        simp only [insertEnd_bytes, length_append]
        omega
      rw [if_pos hb, if_pos hb, writeBlocks_concat, if_pos hlast,
        insertEnd_insertEnd]
    · have hsplit : pre ++ [b, emplaceBlock n s] = (pre ++ [b]) ++ [emplaceBlock n s] := by
        simp
      rw [if_neg hb, if_neg hb, hsplit, writeBlocks_concat, if_pos hnew, hmore]
      simp

/-- Inside its limits `wr_ptr` does what `writeBlocks` says. -/
theorem wrPtr_eq (src : List UInt8) (hpos : bs = [] → 0 < n) (hlt : n < 2 ^ 31) :
    wrPtr { dataBuffer := bs } n src = .ok { dataBuffer := writeBlocks bs n src } := by
  unfold wrPtr
  rw [if_neg, if_neg]
  · rintro ⟨-, h⟩
    simp only [MAX_VECTOR_SIZE, EXPECTED_DATA_BLOCK_SIZE] at h
    omega
  · rintro ⟨h, h0⟩
    exact absurd (hpos h) (by omega)

theorem packFrom_contents (group fs : List Frame) (hb : b.bytes = frameBytes group) :
    ∃ groups : List (List Frame), groups.flatten = group ++ fs ∧
      (packFrom b fs).map bytes = groups.map frameBytes := by
  induction fs generalizing b group with
  | nil => exact ⟨[group], by simp, by simp [packFrom, hb]⟩
  | cons f fs ih =>
    unfold packFrom
    split
    · obtain ⟨groups, hflat, hmap⟩ := ih (b.insertEnd f.bytes) (group ++ [f]) (by simp [hb])
      exact ⟨groups, by simpa using hflat, hmap⟩
    · obtain ⟨groups, hflat, hmap⟩ := ih (emplaceBlock f.size f.bytes) [f]
        (by simp [emplaceBlock_bytes])
      exact ⟨group :: groups, by simp [hflat], by simp [hb, hmap]⟩

theorem packFrames_contents :
    ∃ groups : List (List Frame), groups.flatten = fs ∧
      (packFrames fs).map bytes = groups.map frameBytes := by
  cases fs with
  | nil => exact ⟨[], rfl, rfl⟩
  | cons f fs =>
    exact packFrom_contents _ [f] fs (by simp [emplaceBlock_bytes])

theorem packFrom_head : ∃ c cs, packFrom b fs = c :: cs ∧ b.bytes <+: c.bytes := by
  induction fs generalizing b with
  | nil => exact ⟨b, [], rfl, prefix_rfl⟩
  | cons f fs ih =>
    unfold packFrom
    split
    · obtain ⟨c, cs, hc, hpre⟩ := ih (b.insertEnd f.bytes)
      exact ⟨c, cs, hc, (prefix_append _ _).trans hpre⟩
    · exact ⟨b, _, rfl, prefix_rfl⟩

end HazelcastClient.Protocol
