import HazelcastClient.Serialization.Compact.Stream

/-!
# Positions of a data input

`check_available` compares the length that is asked for with `buffer_.size() - pos`, a number
without a sign. At a negative position, and at one beyond the end, this is not what is left of
the buffer: the check passes and the call reads outside of it. `position` only checks that a
position is not too far ahead of the current one, and a read at an explicit position checks
nothing else.
-/

namespace HazelcastClient.Serialization.DataInput

open Compact

/-- `read` is for bytes, integers and floats, a uuid and a given number of bytes. -/
inductive Call where
  | read (length : ℕ)
  | readAt (pos : Int32) (length : ℕ)
  | skipBytes (i : Int32)
  | position (p : Int32)

/-- Calls in a row. What is called next may depend on the bytes that have been read and on
the exceptions. -/
inductive Calls where
  | done
  | call (c : Call) (next : Result (List UInt8) → Calls)

section Calls

variable (data : List UInt8)

/-- `requestedLength` has been converted to a `size_t`. -/
def checkAvailable (pos : Int32) (requestedLength : ℕ) : Result Unit :=
  let available := ((data.length - pos.toInt) % 2 ^ 64).toNat
  if available < requestedLength then .error (.thrown (.notEnoughBytes available requestedLength))
  else .ok ()

/-- The bytes at a position. Bytes outside of the buffer are `undefined`. -/
def readAt (pos : Int32) (length : ℕ) : Result (List UInt8) := do
  checkAvailable data pos length
  if length = 0 ∨ 0 ≤ pos.toInt ∧ pos.toInt + length ≤ data.length then
    .ok ((data.drop pos.toInt.toNat).take length)
  else .error .undefined

/-- What a call at a position returns, and the position after it. -/
def Call.exec (pos : Int32) : Call → Result (List UInt8 × Int32)
  | read length => do
    let bytes ← DataInput.readAt data pos length
    .ok (bytes, pos + .ofNat length)
  | readAt pos' length => do
    let bytes ← DataInput.readAt data pos' length
    .ok (bytes, pos)
  | skipBytes i => do
    checkAvailable data pos (toSize i.toInt)
    .ok ([], pos + i)
  | position p => do
    if pos < p then checkAvailable data pos (toSize (p - pos).toInt)
    .ok ([], p)

/-- The calls that are made, with the positions. An exception leaves the position. -/
def Calls.made : Int32 → Calls → List (Int32 × Call)
  | _, done => []
  | pos, call c next => (pos, c) ::
    match c.exec data pos with
    | .ok (bytes, pos) => (next (.ok bytes)).made pos
    | .error .undefined => []
    | .error e => (next (.error e)).made pos

/-- The position is inside of the buffer or at its end. -/
def Inside (pos : Int32) : Prop := 0 ≤ pos.toInt ∧ pos.toInt ≤ data.length

/-- No negative position is set, and an explicit position is inside. -/
def Call.PositionsInside : Call → Prop
  | read _ | skipBytes _ => True
  | readAt pos _ => Inside data pos
  | position p => 0 ≤ p.toInt

end Calls

/-- A call is defined and leaves a position inside of the buffer. -/
structure StaysInside (data : List UInt8) (r : Result (List UInt8 × Int32)) : Prop where
  defined : r ≠ .error .undefined
  next : ∀ bytes pos, r = .ok (bytes, pos) → Inside data pos

variable {data : List UInt8} {pos : Int32} {length : ℕ}

theorem staysInside_ok {bytes : List UInt8} (h : Inside data pos) :
    StaysInside data (.ok (bytes, pos)) :=
  ⟨nofun, by rintro _ _ ⟨⟩; exact h⟩

theorem staysInside_thrown (e : Error) : StaysInside data (.error (.thrown e)) := ⟨nofun, nofun⟩

section Inside

variable (hsize : data.length < 2 ^ 31) (hpos : Inside data pos)

include hsize hpos

/-- The check is right at a position inside of the buffer. -/
theorem checkAvailable_eq : checkAvailable data pos length =
    if pos.toInt + length ≤ data.length then .ok ()
    else .error (.thrown (.notEnoughBytes (data.length - pos.toInt).toNat length)) := by
  have hmod : (data.length - pos.toInt) % 2 ^ 64 = data.length - pos.toInt := by
    have := hpos.1
    have := hpos.2
    exact Int.emod_eq_of_lt (by omega) (by omega)
  have := hpos.2
  simp only [checkAvailable, hmod]
  split <;> split <;> first | rfl | omega

theorem readAt_eq : readAt data pos length =
    if pos.toInt + length ≤ data.length then .ok ((data.drop pos.toInt.toNat).take length)
    else .error (.thrown (.notEnoughBytes (data.length - pos.toInt).toNat length)) := by
  rw [readAt, checkAvailable_eq hsize hpos]
  split
  · rename_i hfits
    rw [ok_bind, if_pos (.inr ⟨hpos.1, hfits⟩)]
  · rfl

theorem toInt_add {i : Int32} (hi : 0 ≤ i.toInt) (hfits : pos.toInt + i.toInt ≤ data.length) :
    (pos + i).toInt = pos.toInt + i.toInt := by
  have := hpos.1
  rw [Int32.toInt_add]
  exact Int.bmod_eq_of_le (by omega) (by omega)

/-- A call with such positions does not leave the buffer, and neither does the position. -/
theorem exec_inside {c : Call} (hc : c.PositionsInside data) :
    StaysInside data (c.exec data pos) := by
  have hstart := hpos.1
  cases c with
  | read length =>
    rw [Call.exec, readAt_eq hsize hpos]
    split
    · rename_i hfits
      have hlength : (Int32.ofNat length).toInt = length := by
        rw [Int32.toInt_ofNat', Int32.size]
        exact Int.bmod_eq_of_le (by omega) (by omega)
      refine staysInside_ok ?_
      rw [Inside, toInt_add hsize hpos (by omega) (by omega), hlength]
      omega
    · exact staysInside_thrown _
  | readAt pos' length =>
    rw [Call.exec, readAt_eq hsize hc]
    split
    · exact staysInside_ok hpos
    · exact staysInside_thrown _
  | skipBytes i =>
    rw [Call.exec, checkAvailable_eq hsize hpos]
    split
    · rename_i hfits
      -- a negative number is a large `size_t`
      have hi : 0 ≤ i.toInt ∧ (toSize i.toInt : ℤ) = i.toInt := by
        have := i.le_toInt
        have := i.toInt_lt
        unfold toSize at hfits ⊢
        split <;> rename_i hi <;> simp only [hi, if_true, if_false] at hfits <;> omega
      refine staysInside_ok ?_
      rw [Inside, toInt_add hsize hpos hi.1 (by omega)]
      omega
    · exact staysInside_thrown _
  | position p =>
    have hp : 0 ≤ p.toInt := hc
    rw [Call.exec]
    split
    · rename_i hlt
      have hlt' := Int32.lt_iff_toInt_lt.mp hlt
      have hsub : (p - pos).toInt = p.toInt - pos.toInt := by
        have := p.toInt_lt
        rw [Int32.toInt_sub]
        exact Int.bmod_eq_of_le (by omega) (by omega)
      rw [checkAvailable_eq hsize hpos]
      split
      · rename_i hfits
        have hdistance : (toSize (p - pos).toInt : ℤ) = p.toInt - pos.toInt := by
          rw [hsub, toSize, if_pos (by omega)]
          omega
        exact staysInside_ok ⟨hp, by omega⟩
      · exact staysInside_thrown _
    · rename_i hle
      have hle' := Int32.le_iff_toInt_le.mp (Int32.not_lt.mp hle)
      exact staysInside_ok ⟨hp, hle'.trans hpos.2⟩

end Inside

/-- Whatever is called, as long as the positions that are given are inside. -/
theorem made_inside (hsize : data.length < 2 ^ 31) {calls : Calls} (hpos : Inside data pos)
    (h : ∀ c ∈ calls.made data pos, c.2.PositionsInside data) :
    ∀ c ∈ calls.made data pos, c.2.exec data c.1 ≠ .error .undefined := by
  induction calls generalizing pos with
  | done => nofun
  | call c next ih =>
    rw [Calls.made] at h ⊢
    obtain ⟨hdefined, hnext⟩ := exec_inside hsize hpos (h _ (.head _))
    intro c' hc'
    obtain rfl | hc' := List.mem_cons.mp hc'
    · exact hdefined
    · cases hexec : c.exec data pos with
      | ok r =>
        simp only [hexec] at h hc'
        exact ih _ (hnext _ _ hexec) (fun c hc => h c (.tail _ hc)) c' hc'
      | error e =>
        have hne : e ≠ .undefined := fun heq => hdefined (heq ▸ hexec)
        simp only [hexec] at h hc'
        exact ih _ hpos (fun c hc => h c (.tail _ hc)) c' hc'

/-- In a buffer whose size is an `int`, calls in a row read nothing outside of it if none of
them sets a negative position and the explicit positions are inside. Any other position leads
outside: the next byte is read there. -/
theorem reads_inside (data : List UInt8) (hsize : data.length < 2 ^ 31) :
    (∀ calls : Calls, (∀ c ∈ calls.made data 0, c.2.PositionsInside data) →
      ∀ c ∈ calls.made data 0, c.2.exec data c.1 ≠ .error .undefined) ∧
    (∀ pos p, Inside data pos → p.toInt < 0 → (Call.position p).exec data pos = .ok ([], p) ∧
      (Call.read 1).exec data p = .error .undefined) ∧
    ∀ pos p, ¬ Inside data p → (Call.readAt p 1).exec data pos = .error .undefined := by
  have houtside {p : Int32} (hp : ¬ Inside data p) : readAt data p 1 = .error .undefined := by
    have := p.le_toInt
    have := p.toInt_lt
    unfold Inside at hp
    simp only [readAt, checkAvailable]
    rw [if_neg (by omega), ok_bind, if_neg (by omega)]
  refine ⟨fun calls => made_inside hsize ⟨le_rfl, Int.natCast_nonneg _⟩, ?_, ?_⟩
  · intro pos p hpos hp
    constructor
    · have := hpos.1
      have hnot : ¬ pos < p := by
        rw [Int32.lt_iff_toInt_lt]
        omega
      rw [Call.exec, if_neg hnot]
    · rw [Call.exec, houtside (by unfold Inside; omega)]
      rfl
  · intro pos p hp
    rw [Call.exec, houtside hp]
    rfl

theorem reads_inside_back : ([1, 2] : List UInt8).length < 2 ^ 31 ∧
    ∀ c ∈ (Calls.call (.read 1) fun _ => .call (.position 0) fun _ => .call (.readAt 1 1)
        fun _ => .call (.read 2) fun _ => .call (.read 1) fun _ => .done).made [1, 2] 0,
      c.2.exec [1, 2] c.1 ≠ .error .undefined :=
  ⟨by decide, (reads_inside [1, 2] (by decide)).1 _ fun c hc => by
    have hmade : c ∈ [(0, Call.read 1), (1, .position 0), (0, .readAt 1 1), (0, .read 2),
      (2, .read 1)] := hc
    simp only [List.mem_cons, List.not_mem_nil, or_false] at hmade
    rcases hmade with rfl | rfl | rfl | rfl | rfl <;> simp [Call.PositionsInside, Inside]⟩

/-- A position before the buffer, and a read at a position beyond its end. -/
theorem reads_outside :
    (∃ c ∈ (Calls.call (.position (-1)) fun _ => .call (.read 1) fun _ => .done).made [0, 0] 0,
      c.2.exec [0, 0] c.1 = .error .undefined) ∧
    ∃ c ∈ (Calls.call (.readAt 3 1) fun _ => .done).made [0, 0] 0,
      c.2.exec [0, 0] c.1 = .error .undefined :=
  ⟨⟨(-1, .read 1), .tail _ (.head _), rfl⟩, ⟨(0, .readAt 3 1), .head _, rfl⟩⟩

end HazelcastClient.Serialization.DataInput
