import HazelcastClient.Protocol.BlockLayout
import HazelcastClient.Protocol.Framing
import HazelcastClient.Protocol.Reader

/-!
# Fragmented messages

A sender that splits a message sends every piece as a wire message of its own: a
fragmentation frame, the frames of the piece, and `IS_FINAL_FLAG` on the last
frame, without which `on_data` would not see the end of the piece. The builder
erases the fragmentation frame and appends the blocks of the piece to the
partial message of the same fragmentation id.

The flag stays set, and the blocks of the pieces stay apart, so the reassembled
message is read differently from the message received whole.
-/

namespace HazelcastClient.Protocol

open LittleEndian List

open ClientMessage

/-! ## The mark on the last frame -/

namespace Frame

theorem exists_header (f : Frame) :
    ∃ a b c d e g t, f.bytes = a :: b :: c :: d :: e :: g :: t := by
  have h := f.header_le
  unfold SIZE_OF_FRAME_LENGTH_AND_FLAGS at h
  match hb : f.bytes with
  | a :: b :: c :: d :: e :: g :: t => exact ⟨a, b, c, d, e, g, t, rfl⟩
  | [] | [_] | [_, _] | [_, _, _] | [_, _, _, _] | [_, _, _, _, _] =>
    rw [hb] at h
    simp at h

/-- The frame with `IS_FINAL_FLAG` set, bit 5 of the sixth byte. -/
def setFinal (f : Frame) : Frame where
  bytes := f.bytes.modify 5 (· ||| 0x20)
  header_le := by
    rw [length_modify]
    exact f.header_le
  frame_len := by
    obtain ⟨a, b, c, d, e, g, t, hb⟩ := f.exists_header
    have h := f.frame_len
    rw [length_modify, ← h, hb]
    rfl

@[simp] theorem setFinal_size (f : Frame) : f.setFinal.size = f.size :=
  length_modify _ _ _

theorem isFinal_of_bytes {f : Frame} {a b c d e g : UInt8} {t : List UInt8}
    (hb : f.bytes = a :: b :: c :: d :: e :: g :: t) : f.isFinal = g.toNat.testBit 5 := by
  have he : e.toNat < 256 := e.toNat_lt
  have hflags : f.flags = e.toNat + 256 * g.toNat := by
    rw [flags, frameFlags, hb]
    simp [FLAGS_FIELD_OFFSET, leNat]
  rw [isFinal, IS_FINAL_FLAG, isFlagSet_two_pow, hflags, Nat.testBit_eq_decide_div_mod_eq,
    Nat.testBit_eq_decide_div_mod_eq]
  congr 2
  omega

@[simp] theorem setFinal_isFinal (f : Frame) : f.setFinal.isFinal = true := by
  obtain ⟨a, b, c, d, e, g, t, hb⟩ := f.exists_header
  have hset : f.setFinal.bytes = a :: b :: c :: d :: e :: (g ||| 0x20) :: t :=
    congrArg (List.modify · 5 (· ||| 0x20)) hb
  rw [isFinal_of_bytes hset, UInt8.toNat_or, Nat.testBit_or]
  simp [Nat.testBit_eq_decide_div_mod_eq]

end Frame

/-- A frame as it is written, before the last one of a wire message is marked. -/
abbrev OpenFrame := { f : Frame // f.isFinal = false }

/-- The frames of a wire message: the last one is marked. -/
def markLast : List OpenFrame → List Frame
  | [] => []
  | [f] => [f.1.setFinal]
  | f :: g :: fs => f.1 :: markLast (g :: fs)

theorem markLast_cons (f : OpenFrame) (fs : List OpenFrame) :
    markLast (f :: fs) = (if fs = [] then f.1.setFinal else f.1) :: markLast fs := by
  cases fs with
  | nil | cons g fs => rfl

theorem terminated_markLast (f : OpenFrame) (fs : List OpenFrame) :
    Terminated (markLast (f :: fs)) := by
  induction fs generalizing f with
  | nil => exact f.1.setFinal_isFinal
  | cons g fs ih =>
    have h := ih g
    rw [markLast_cons] at h
    rw [markLast, markLast_cons]
    exact ⟨f.2, h⟩

def sealFrames (f : OpenFrame) (fs : List OpenFrame) : WireMessage :=
  ⟨markLast (f :: fs), terminated_markLast f fs⟩

theorem map_size_markLast (fs : List OpenFrame) :
    (markLast fs).map Frame.size = fs.map fun f => f.1.size := by
  induction fs with
  | nil => rfl
  | cons f fs ih =>
    rw [markLast_cons, map_cons, map_cons, ih]
    split <;> simp

theorem countP_isFinal_markLast (fs : List OpenFrame) :
    (markLast fs).countP Frame.isFinal = if fs = [] then 0 else 1 := by
  induction fs with
  | nil => rfl
  | cons f fs ih =>
    rw [markLast_cons, countP_cons, ih]
    by_cases h : fs = []
    · simp [h]
    · simp [h, f.2]

/-! ## Fragments -/

inductive FragmentKind where
  | first
  | middle
  | last
  deriving DecidableEq

/-- The byte of the header that holds the fragment flags. -/
def FragmentKind.flagByte : FragmentKind → UInt8
  | .first => 0x80
  | .middle => 0
  | .last => 0x40

abbrev FragmentationId := { id : ℤ // -2 ^ 63 ≤ id ∧ id < 2 ^ 63 }

/-- The 14 bytes of a fragmentation frame. -/
def fragmentationFrame (kind : FragmentKind) (id : FragmentationId) : OpenFrame :=
  ⟨{ bytes := 14 :: 0 :: 0 :: 0 :: 0 :: kind.flagByte :: leBytes 8 (id.1 % 2 ^ 64).toNat
     header_le := by simp [SIZE_OF_FRAME_LENGTH_AND_FLAGS]
     frame_len := by
      simp only [length_cons, leBytes_length]
      rfl },
    by
      rw [Frame.isFinal_of_bytes rfl]
      cases kind <;> decide⟩

/-- What the peer sends: whole messages, and fragments of split ones. -/
inductive Item where
  | whole (f : OpenFrame) (fs : List OpenFrame) (h : (sealFrames f fs).Unfragmented)
  | fragment (kind : FragmentKind) (id : FragmentationId) (frames : List OpenFrame)

namespace Item

def toWire : Item → WireMessage
  | whole f fs _ => sealFrames f fs
  | fragment kind id frames => sealFrames (fragmentationFrame kind id) frames

def completes : Item → Bool
  | whole _ _ _ => true
  | fragment kind _ _ => kind = .last

def hasId (id : FragmentationId) : Item → Bool
  | whole _ _ _ => false
  | fragment _ id' _ => id' = id

end Item

def fragmentHead (kind : FragmentKind) (id : FragmentationId) (frames : List OpenFrame) : Frame :=
  if frames = [] then (fragmentationFrame kind id).1.setFinal else (fragmentationFrame kind id).1

theorem fragmentHead_bytes (kind : FragmentKind) (id : FragmentationId)
    (frames : List OpenFrame) :
    ∃ g, (g = kind.flagByte ∨ g = kind.flagByte ||| 0x20) ∧
      (fragmentHead kind id frames).bytes =
        14 :: 0 :: 0 :: 0 :: 0 :: g :: leBytes 8 (id.1 % 2 ^ 64).toNat := by
  unfold fragmentHead
  split
  · exact ⟨_, .inr rfl, rfl⟩
  · exact ⟨_, .inl rfl, rfl⟩

theorem fragmentHead_flags (kind : FragmentKind) (id : FragmentationId)
    (frames : List OpenFrame) :
    isFlagSet (fragmentHead kind id frames).flags UNFRAGMENTED_MESSAGE = false ∧
      isFlagSet (fragmentHead kind id frames).flags BEGIN_FRAGMENT_FLAG =
        decide (kind = .first) ∧
      isFlagSet (fragmentHead kind id frames).flags END_FRAGMENT_FLAG =
        decide (kind = .last) := by
  obtain ⟨g, hg, hb⟩ := fragmentHead_bytes kind id frames
  have hflags : (fragmentHead kind id frames).flags = 256 * g.toNat := by
    rw [Frame.flags, frameFlags, hb]
    simp [FLAGS_FIELD_OFFSET, leNat]
  rw [hflags]
  rcases hg with rfl | rfl <;> cases kind <;> decide

theorem toSigned_fragmentationId (id : FragmentationId) :
    toSigned 8 (leNat (leBytes 8 (id.1 % 2 ^ 64).toNat)) = id.1 := by
  obtain ⟨i, hlo, hhi⟩ := id
  have hlt : (i % 2 ^ 64).toNat < 256 ^ 8 := by omega
  rw [leNat_leBytes _ _ hlt, toSigned]
  simp only
  split <;> omega

end HazelcastClient.Protocol
