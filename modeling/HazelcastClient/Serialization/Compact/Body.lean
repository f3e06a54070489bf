import HazelcastClient.Serialization.Compact.ArrayLaw

/-!
# Bodies of compact records

A body is what a writer has put together: the area of the fields of a fixed size, the data
behind it, and the offsets of the fields of variable size. A piece is what one field puts
into a body. Pieces that are apart from each other do not disturb each other, and a body
holds all of them in the end, whatever their order was.
-/

namespace HazelcastClient.Serialization.Compact

open RandomAccess List

/-- What a field puts into a body: a bit, some bytes at an offset, or a value that is
appended under a number, unless it is absent. -/
inductive Piece where
  | bit (offset bit : ℕ) (value : Bool)
  | range (offset : ℕ) (bytes : List UInt8)
  | entry (index : ℕ) (payload : Option (List UInt8))
  deriving DecidableEq, Inhabited

namespace Piece

def appended : Piece → List UInt8
  | .entry _ payload => payload.getD []
  | _ => []

/-- The piece has its place in a body with `length` bytes of a fixed area and `count`
offsets. -/
def Within (length count : ℕ) : Piece → Prop
  | .bit offset k _ => offset < length ∧ k < 8
  | .range offset bytes => offset + bytes.length ≤ length
  | .entry index _ => index < count

/-- The places of two pieces do not overlap. -/
def Apart : Piece → Piece → Prop
  | .bit offset k _, .bit offset' k' _ => offset ≠ offset' ∨ k ≠ k'
  | .bit offset _ _, .range offset' bytes' => offset < offset' ∨ offset' + bytes'.length ≤ offset
  | .range offset bytes, .bit offset' _ _ => offset' < offset ∨ offset + bytes.length ≤ offset'
  | .range offset bytes, .range offset' bytes' =>
    offset + bytes.length ≤ offset' ∨ offset' + bytes'.length ≤ offset
  | .entry index _, .entry index' _ => index ≠ index'
  | _, _ => True

theorem Apart.symm {p q : Piece} (h : p.Apart q) : q.Apart p := by
  cases p <;> cases q <;> simp only [Apart] at h ⊢ <;> omega

end Piece

/-- The parts of a record. Every offset is one that the table can have, and there is no
data without offsets. -/
structure Body where
  fixed : List UInt8
  data : List UInt8
  offsets : List ℤ
  valid : ∀ o ∈ offsets, IsOffset (fixed.length + data.length) o
  dense : offsets = [] → data = []

namespace Body

def length (b : Body) : ℕ := b.fixed.length + b.data.length

def empty (length count : ℕ) : Body where
  fixed := zeroBytes length
  data := []
  offsets := List.replicate count 0
  valid o ho := by
    rw [eq_of_mem_replicate ho]
    exact .inr ⟨le_refl _, Int.natCast_nonneg _⟩
  dense _ := rfl

/-- Bytes of the fixed area are replaced, as far as they are inside. -/
def setFixed (b : Body) (offset : ℕ) (bytes : List UInt8) : Body :=
  if h : offset + bytes.length ≤ b.fixed.length then
    { b with
      fixed := overwrite b.fixed offset bytes
      valid := by
        rw [overwrite_length h]
        exact b.valid }
  else b

theorem isOffset_append {o : ℤ} {b : Body} (bytes : List UInt8) (h : o ∈ b.offsets) :
    IsOffset (b.fixed.length + (b.data ++ bytes).length) o := by
  rcases b.valid o h with hnone | ⟨hlow, hhigh⟩
  · exact .inl hnone
  · refine .inr ⟨hlow, ?_⟩
    rw [length_append]
    omega

/-- A value is appended, and its offset is kept; an absent value has the offset `-1`. -/
def setEntry (b : Body) (index : ℕ) (payload : Option (List UInt8)) : Body :=
  if h : index < b.offsets.length then
    { b with
      data := b.data ++ payload.getD []
      offsets := b.offsets.set index (payload.elim (-1) fun _ => (b.length : ℤ))
      valid := by
        intro o ho
        rcases mem_or_eq_of_mem_set ho with hmem | rfl
        · exact isOffset_append _ hmem
        · cases payload with
          | none => exact .inl rfl
          | some bytes =>
            refine .inr ⟨Int.natCast_nonneg _, ?_⟩
            rw [length_append, Option.elim_some, length]
            omega
      dense := by
        intro hnil
        rw [set_eq_nil_iff] at hnil
        rw [hnil] at h
        exact absurd h (Nat.not_lt_zero _) }
  else b

def put (b : Body) : Piece → Body
  | .bit offset bit value => b.setFixed offset [setBitOf (b.fixed.getD offset 0) bit value]
  | .range offset bytes => b.setFixed offset bytes
  | .entry index payload => b.setEntry index payload

def fill (b : Body) (ps : List Piece) : Body := ps.foldl put b

def Holds (b : Body) : Piece → Prop
  | .bit offset bit value => ∃ byte, At b.fixed offset [byte] ∧ bitOf byte bit = value
  | .range offset bytes => At b.fixed offset bytes
  | .entry index none => b.offsets[index]? = some (-1)
  | .entry index (some bytes) =>
    ∃ pos, b.offsets[index]? = some ((b.fixed.length + pos : ℕ) : ℤ) ∧ At b.data pos bytes

section Put

variable {b : Body} {p q : Piece} {offset : ℕ} {bytes : List UInt8} {index : ℕ}
  (payload : Option (List UInt8))

theorem setFixed_of_le (h : offset + bytes.length ≤ b.fixed.length) :
    (b.setFixed offset bytes).fixed = overwrite b.fixed offset bytes ∧
      (b.setFixed offset bytes).data = b.data ∧
      (b.setFixed offset bytes).offsets = b.offsets := by
  rw [setFixed, dif_pos h]
  exact ⟨rfl, rfl, rfl⟩

theorem setEntry_of_lt (h : index < b.offsets.length) :
    (b.setEntry index payload).fixed = b.fixed ∧
      (b.setEntry index payload).data = b.data ++ payload.getD [] ∧
      (b.setEntry index payload).offsets =
        b.offsets.set index (payload.elim (-1) fun _ => (b.length : ℤ)) := by
  rw [setEntry, dif_pos h]
  exact ⟨rfl, rfl, rfl⟩

theorem setFixed_length (h : offset + bytes.length ≤ b.fixed.length) :
    (b.setFixed offset bytes).length = b.length := by
  obtain ⟨hf, hd, -⟩ := setFixed_of_le h
  rw [length, hf, hd, overwrite_length h, length]

theorem setEntry_length (h : index < b.offsets.length) :
    (b.setEntry index payload).length = b.length + (payload.getD []).length := by
  obtain ⟨hf, hd, -⟩ := setEntry_of_lt payload h
  rw [length, hf, hd, length_append, length, Nat.add_assoc]

section

variable (h : p.Within b.fixed.length b.offsets.length)

include h

theorem put_cases :
    (b.put p).fixed.length = b.fixed.length ∧ (b.put p).data = b.data ++ p.appended ∧
      (b.put p).offsets.length = b.offsets.length := by
  have hfixed : ∀ offset (bytes : List UInt8), offset + bytes.length ≤ b.fixed.length →
      (b.setFixed offset bytes).fixed.length = b.fixed.length ∧
        (b.setFixed offset bytes).data = b.data ++ [] ∧
        (b.setFixed offset bytes).offsets.length = b.offsets.length := by
    intro offset bytes hle
    obtain ⟨hf, hd, ho⟩ := setFixed_of_le hle
    rw [hf, hd, ho, overwrite_length hle, append_nil]
    exact ⟨rfl, rfl, rfl⟩
  cases p with
  | bit offset bit value => exact hfixed _ _ h.1
  | range offset bytes => exact hfixed _ _ h
  | entry index payload =>
    obtain ⟨hf, hd, ho⟩ := setEntry_of_lt payload h
    rw [put, hf, hd, ho, length_set]
    exact ⟨rfl, rfl, rfl⟩

theorem within_put :
    q.Within (b.put p).fixed.length (b.put p).offsets.length ↔
      q.Within b.fixed.length b.offsets.length := by
  rw [(put_cases h).1, (put_cases h).2.2]

theorem holds_put : (b.put p).Holds p := by
  cases p with
  | bit offset bit value =>
    have hle : offset + [setBitOf (b.fixed.getD offset 0) bit value].length ≤ b.fixed.length := h.1
    refine ⟨setBitOf (b.fixed.getD offset 0) bit value, ?_, ?_⟩
    · rw [put, (setFixed_of_le hle).1]
      exact at_overwrite hle
    · rw [bitOf_setBitOf _ h.2 h.2, if_pos rfl]
  | range offset bytes =>
    have hat : At (overwrite b.fixed offset bytes) offset bytes := at_overwrite h
    rwa [← (setFixed_of_le h).1] at hat
  | entry index payload =>
    obtain ⟨hf, hd, ho⟩ := setEntry_of_lt payload h
    cases payload with
    | none =>
      rw [Holds, put, ho]
      exact List.getElem?_set_self h
    | some bytes =>
      refine ⟨b.data.length, ?_, ?_⟩
      · rw [put, ho, hf]
        exact List.getElem?_set_self h
      · rw [put, hd]
        exact At.self b.data bytes

end

theorem getD_of_at {l : List UInt8} {pos : ℕ} {byte : UInt8} (h : At l pos [byte]) :
    l.getD pos 0 = byte := by
  obtain ⟨before, after, rfl, rfl⟩ := h
  simp

theorem at_setFixed {pos : ℕ} {part : List UInt8} (hle : offset + bytes.length ≤ b.fixed.length)
    (hat : At b.fixed pos part) (h : pos + part.length ≤ offset ∨ offset + bytes.length ≤ pos) :
    At (b.setFixed offset bytes).fixed pos part := by
  rw [(setFixed_of_le hle).1]
  exact hat.overwrite hle h

/-- A piece stays when one is put that is apart from it. -/
theorem Holds.put (hp : b.Holds p) (hin : p.Within b.fixed.length b.offsets.length)
    (hq : q.Within b.fixed.length b.offsets.length) (h : p.Apart q) : (b.put q).Holds p := by
  cases p with
  | bit offset bit value =>
    obtain ⟨byte, hat, hbit⟩ := hp
    cases q with
    | bit offset' bit' value' =>
      have hle : offset' + [setBitOf (b.fixed.getD offset' 0) bit' value'].length ≤
          b.fixed.length := hq.1
      by_cases heq : offset = offset'
      · subst heq
        have hne : bit ≠ bit' := h.resolve_left fun hne => hne rfl
        refine ⟨setBitOf byte bit' value', ?_, ?_⟩
        · rw [Body.put, (setFixed_of_le hle).1, getD_of_at hat]
          rw [getD_of_at hat] at hle
          exact at_overwrite hle
        · rw [bitOf_setBitOf _ hq.2 hin.2, if_neg hne, hbit]
      · refine ⟨byte, at_setFixed hle hat ?_, hbit⟩
        rw [length_singleton, length_singleton]
        omega
    | range offset' bytes' => exact ⟨byte, at_setFixed hq hat h, hbit⟩
    | entry index payload =>
      refine ⟨byte, ?_, hbit⟩
      rwa [Body.put, (setEntry_of_lt payload hq).1]
  | range offset bytes =>
    cases q with
    | bit offset' bit' value' => exact at_setFixed hq.1 hp (Or.symm h)
    | range offset' bytes' => exact at_setFixed hq hp h
    | entry index payload =>
      have hat : At b.fixed offset bytes := hp
      rwa [← (setEntry_of_lt payload hq).1] at hat
  | entry index payload =>
    -- an entry depends on its offset and on the data, which only grows
    have hoffset : (b.put q).offsets[index]? = b.offsets[index]? := by
      cases q with
      | bit offset' bit' value' => rw [Body.put, (setFixed_of_le hq.1).2.2]
      | range offset' bytes' => rw [Body.put, (setFixed_of_le hq).2.2]
      | entry index' payload' =>
        rw [Body.put, (setEntry_of_lt payload' hq).2.2, List.getElem?_set_ne h.symm]
    cases payload with
    | none => exact hoffset.trans hp
    | some bytes =>
      obtain ⟨pos, hpos, hat⟩ := hp
      refine ⟨pos, ?_, ?_⟩
      · rw [hoffset, hpos, (put_cases hq).1]
      · rw [(put_cases hq).2.1]
        exact hat.append _

end Put

section Fill

variable {b : Body} {p : Piece} {ps : List Piece}

theorem Holds.fill (hp : b.Holds p) (hin : p.Within b.fixed.length b.offsets.length)
    (h : ∀ q ∈ ps, q.Within b.fixed.length b.offsets.length)
    (hapart : ∀ q ∈ ps, p.Apart q) : (b.fill ps).Holds p := by
  induction ps generalizing b with
  | nil => exact hp
  | cons q ps ih =>
    have hq := h q mem_cons_self
    refine ih (hp.put hin hq (hapart q mem_cons_self)) ((within_put hq).mpr hin) ?_ ?_
    · exact fun r hr => (within_put hq).mpr (h r (mem_cons_of_mem _ hr))
    · exact fun r hr => hapart r (mem_cons_of_mem _ hr)

section

variable (h : ∀ p ∈ ps, p.Within b.fixed.length b.offsets.length)

include h

theorem fill_cases :
    (b.fill ps).fixed.length = b.fixed.length ∧
      (b.fill ps).data = b.data ++ ps.flatMap Piece.appended ∧
      (b.fill ps).offsets.length = b.offsets.length := by
  induction ps generalizing b with
  | nil => exact ⟨rfl, (append_nil _).symm, rfl⟩
  | cons p ps ih =>
    have hp := h p mem_cons_self
    obtain ⟨hf, hd, ho⟩ := put_cases hp
    obtain ⟨hf', hd', ho'⟩ := ih (b := b.put p) fun q hq =>
      (within_put hp).mpr (h q (mem_cons_of_mem _ hq))
    refine ⟨hf'.trans hf, ?_, ho'.trans ho⟩
    rw [flatMap_cons, ← append_assoc, ← hd]
    exact hd'

theorem fill_holds (hapart : ps.Pairwise Piece.Apart) : ∀ p ∈ ps, (b.fill ps).Holds p := by
  induction ps generalizing b with
  | nil => exact fun p hp => by cases hp
  | cons q ps ih =>
    obtain ⟨hq, hps⟩ := pairwise_cons.mp hapart
    have hin := h q mem_cons_self
    have hrest : ∀ r ∈ ps, r.Within (b.put q).fixed.length (b.put q).offsets.length :=
      fun r hr => (within_put hin).mpr (h r (mem_cons_of_mem _ hr))
    intro p hp
    rcases mem_cons.mp hp with rfl | hmem
    · exact (holds_put hin).fill ((within_put hin).mpr hin) hrest hq
    · exact ih hrest hps p hmem

end

end Fill

/-- The bytes of a record: the length of the fixed area and the data, both of them, and the
offsets. A record without offsets is only the fixed area. -/
def bytes (order : ByteOrder) (b : Body) : List UInt8 :=
  if b.offsets = [] then b.fixed
  else
    storeInt32 order (.ofNat b.length) ++ (b.fixed ++ b.data) ++
      offsetBytes order b.length b.offsets

theorem bytes_length (order : ByteOrder) (b : Body) :
    (b.bytes order).length =
      if b.offsets = [] then b.fixed.length
      else 4 + b.length + b.offsets.length * offsetWidth b.length := by
  rw [bytes]
  split
  · rfl
  · rw [length_append, length_append, length_append, storeInt32_length,
      offsetBytes_length, length]

end Body

end HazelcastClient.Serialization.Compact
