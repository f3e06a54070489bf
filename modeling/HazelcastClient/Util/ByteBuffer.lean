import Mathlib.Data.List.Basic
import Mathlib.Data.List.TakeDrop
import Mathlib.Order.Nat

/-!
# The read buffer of a connection

`ByteBuffer` is the window `[pos, lim)` over a fixed array of bytes. While the
socket writes into it the window is the free space; after `flip` it is the part
that has been received and not consumed yet. The two bounds of the window are
fields of the structure, so no operation can leave the array.

`unread b` is the content of the window, `received b` what stands before it.
Every operation has one lemma in these two terms, and the callers never look at
the array again.
-/

namespace HazelcastClient.Util

open List

/-- `util::ByteBuffer`. The capacity is the length of the array. -/
structure ByteBuffer where
  buffer : List UInt8
  pos : ℕ
  lim : ℕ
  pos_le_lim : pos ≤ lim
  lim_le_capacity : lim ≤ buffer.length

namespace ByteBuffer

def ofCapacity (capacity : ℕ) : ByteBuffer where
  buffer := List.replicate capacity 0
  pos := 0
  lim := capacity
  pos_le_lim := Nat.zero_le _
  lim_le_capacity := by simp

def capacity (b : ByteBuffer) : ℕ := b.buffer.length

def remaining (b : ByteBuffer) : ℕ := b.lim - b.pos

def hasRemaining (b : ByteBuffer) : Bool := decide (b.pos < b.lim)

def position (b : ByteBuffer) : ℕ := b.pos

/-- The bytes of the window, the memory that `ix()` points to. -/
def unread (b : ByteBuffer) : List UInt8 :=
  (b.buffer.drop b.pos).take (b.lim - b.pos)

def received (b : ByteBuffer) : List UInt8 := b.buffer.take b.pos

def flip (b : ByteBuffer) : ByteBuffer where
  buffer := b.buffer
  pos := 0
  lim := b.pos
  pos_le_lim := Nat.zero_le _
  lim_le_capacity := b.pos_le_lim.trans b.lim_le_capacity

variable (b : ByteBuffer)

theorem unread_length : b.unread.length = b.remaining := by
  have h := b.lim_le_capacity
  simp only [unread, remaining, length_take, length_drop]
  omega

/-- `memcpy` of the window to the front of the array; what stood there and is not
overwritten stays. It is undefined if the window overlaps the place it is copied to. A window
at the front is copied to itself, which compilers allow. -/
def compact (b : ByteBuffer) : Option ByteBuffer :=
  if 0 < b.pos ∧ b.pos < b.remaining then none
  else
    some {
      buffer := b.unread ++ b.buffer.drop b.remaining
      pos := b.remaining
      lim := b.capacity
      pos_le_lim := (Nat.sub_le _ _).trans b.lim_le_capacity
      lim_le_capacity := by
        have h := b.lim_le_capacity
        rw [length_append, unread_length, length_drop]
        simp only [remaining, capacity]
        omega }

def clear (b : ByteBuffer) : ByteBuffer where
  buffer := b.buffer
  pos := 0
  lim := b.capacity
  pos_le_lim := Nat.zero_le _
  lim_le_capacity := le_refl _

/-- `read_bytes(dest, len)`: the bytes copied to `dest` and the buffer left. -/
def readBytes (b : ByteBuffer) (len : ℕ) (h : len ≤ b.remaining) :
    List UInt8 × ByteBuffer :=
  (b.unread.take len,
    { b with
      pos := b.pos + len
      pos_le_lim := by
        have hp := b.pos_le_lim
        simp only [remaining] at h
        omega })

/-- The socket stores `chunk` at `ix()` and `safe_increment_position` moves the
window over it. -/
def store (b : ByteBuffer) (chunk : List UInt8) (h : chunk.length ≤ b.remaining) :
    ByteBuffer where
  buffer := b.received ++ chunk ++ b.buffer.drop (b.pos + chunk.length)
  pos := b.pos + chunk.length
  lim := b.lim
  pos_le_lim := by
    have hp := b.pos_le_lim
    simp only [remaining] at h
    omega
  lim_le_capacity := by
    have hp := b.pos_le_lim
    have hl := b.lim_le_capacity
    simp only [remaining] at h
    simp only [received, length_append, length_take, length_drop]
    omega

theorem hasRemaining_iff : b.hasRemaining = true ↔ b.unread ≠ [] := by
  rw [← length_pos_iff_ne_nil, unread_length]
  simp only [hasRemaining, remaining, decide_eq_true_eq]
  omega

@[simp] theorem unread_flip (b : ByteBuffer) : b.flip.unread = b.received := by
  simp [flip, unread, received]

theorem received_length : b.received.length = b.position := by
  have hp := b.pos_le_lim
  have hl := b.lim_le_capacity
  simp only [received, position, length_take]
  omega

theorem readBytes_fst (len : ℕ) (h : len ≤ b.remaining) :
    (b.readBytes len h).1 = b.unread.take len := rfl

theorem unread_readBytes (len : ℕ) (h : len ≤ b.remaining) :
    (b.readBytes len h).2.unread = b.unread.drop len := by
  simp only [readBytes, unread, drop_take, drop_drop]
  congr 1
  omega

@[simp] theorem received_store (b : ByteBuffer) (chunk : List UInt8)
    (h : chunk.length ≤ b.remaining) :
    (b.store chunk h).received = b.received ++ chunk := by
  have hlen : (b.received ++ chunk).length = b.pos + chunk.length := by
    rw [length_append, received_length, position]
  simp only [store, received] at hlen ⊢
  rw [← hlen, take_left]

/-- What `handle` leaves in the buffer after it consumed: the unread bytes move
to the front and the rest of the array is free. -/
def rewind (b : ByteBuffer) : Option ByteBuffer :=
  if b.hasRemaining then b.compact else some b.clear

theorem rewind_of_overlap (h : 0 < b.pos ∧ b.pos < b.remaining) : b.rewind = none := by
  have hremaining : b.hasRemaining = true := by
    rw [hasRemaining_iff, ← length_pos_iff_ne_nil, unread_length]
    omega
  rw [rewind, if_pos hremaining, compact, if_pos h]

theorem rewind_of_not_overlap (h : ¬ (0 < b.pos ∧ b.pos < b.remaining)) :
    ∃ b', b.rewind = some b' ∧ b'.received = b.unread := by
  unfold rewind
  by_cases hremaining : b.hasRemaining = true
  · rw [if_pos hremaining, compact, if_neg h]
    refine ⟨_, rfl, ?_⟩
    conv_rhs => rw [← take_length (l := b.unread), unread_length]
    simp only [received]
    rw [take_append_of_le_length (unread_length b).ge]
  · rw [if_neg hremaining]
    have hnil : b.unread = [] := by
      by_contra hne
      exact hremaining ((hasRemaining_iff b).mpr hne)
    exact ⟨b.clear, rfl, by simp [clear, received, hnil]⟩

end ByteBuffer

end HazelcastClient.Util
