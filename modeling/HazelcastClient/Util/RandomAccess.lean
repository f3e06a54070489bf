import Mathlib.Data.List.Basic

/-!
# Random access to lists

`At data pos part` says that `part` stands in `data` at the position `pos`, and
`overwrite data pos part` puts it there. What stands apart from the overwritten places
stays.
-/

namespace RandomAccess

open List

variable {α : Type*} {data part part' : List α} {pos pos' : ℕ} {width i : ℕ}

/-- The list `part` stands in `data` at the position `pos`. -/
def At (data : List α) (pos : ℕ) (part : List α) : Prop :=
  ∃ before after, data = before ++ part ++ after ∧ before.length = pos

/-- The list `data` with `part` at the position `pos`. -/
def overwrite (data : List α) (pos : ℕ) (part : List α) : List α :=
  data.take pos ++ part ++ data.drop (pos + part.length)

namespace At

section

variable (h : At data pos part)

include h

theorem bound : pos + part.length ≤ data.length := by
  obtain ⟨before, after, rfl, rfl⟩ := h
  simp

theorem slice : (data.drop pos).take part.length = part := by
  obtain ⟨before, after, rfl, rfl⟩ := h
  rw [append_assoc, drop_left, take_left]

theorem append (more : List α) : At (data ++ more) pos part := by
  obtain ⟨before, after, rfl, rfl⟩ := h
  exact ⟨before, after ++ more, by simp only [append_assoc], rfl⟩

theorem shift (front : List α) : At (front ++ data) (front.length + pos) part := by
  obtain ⟨before, after, rfl, rfl⟩ := h
  exact ⟨front ++ before, after, by simp only [append_assoc], by rw [length_append]⟩

theorem trans (h' : At part pos' part') : At data (pos + pos') part' := by
  obtain ⟨before, after, rfl, rfl⟩ := h
  rw [append_assoc]
  exact (h'.append after).shift before

end

theorem self (before part : List α) : At (before ++ part) before.length part :=
  ⟨before, [], by rw [append_nil], rfl⟩

theorem left (h : At data pos (part ++ part')) : At data pos part := by
  obtain ⟨before, after, rfl, rfl⟩ := h
  exact ⟨before, part' ++ after, by simp only [append_assoc], rfl⟩

theorem right (h : At data pos (part ++ part')) : At data (pos + part.length) part' := by
  obtain ⟨before, after, rfl, rfl⟩ := h
  exact ⟨before ++ part, after, by simp only [append_assoc], by rw [length_append]⟩

end At

/-- In a table with entries of one length the entry with the number `i` starts at
`i * width`. -/
theorem at_flatMap {β : Type*} {f : β → List α} {l : List β} {b : β}
    (hwidth : ∀ c ∈ l, (f c).length = width) (hi : l[i]? = some b) :
    At (l.flatMap f) (i * width) (f b) := by
  induction l generalizing i with
  | nil => cases hi
  | cons c l ih =>
    rw [flatMap_cons]
    cases i with
    | zero =>
      obtain rfl := Option.some.inj hi
      rw [Nat.zero_mul]
      exact ⟨[], _, rfl, rfl⟩
    | succ i =>
      have hrest := ih (fun d hd => hwidth d (mem_cons_of_mem _ hd)) hi
      have hshift := hrest.shift (f c)
      rwa [hwidth c mem_cons_self, Nat.add_comm, ← Nat.succ_mul] at hshift

theorem overwrite_append_left (h : pos + part.length ≤ data.length) (more : List α) :
    overwrite (data ++ more) pos part = overwrite data pos part ++ more := by
  rw [overwrite, overwrite, take_append_of_le_length (by omega), drop_append_of_le_length h]
  simp only [append_assoc]

theorem overwrite_append_right (front data part : List α) (pos : ℕ) :
    overwrite (front ++ data) (front.length + pos) part = front ++ overwrite data pos part := by
  rw [overwrite, overwrite, take_length_add_append, Nat.add_assoc,
    drop_length_add_append]
  simp only [append_assoc]

theorem overwrite_middle (front middle rest : List α) (h : part.length = middle.length) :
    overwrite (front ++ middle ++ rest) front.length part = front ++ part ++ rest := by
  have hright := overwrite_append_right front (middle ++ rest) part 0
  rw [append_assoc, ← Nat.add_zero front.length, hright, overwrite, take_zero,
    nil_append, Nat.zero_add, h, drop_left, append_assoc]

section

variable {β : Type*} {f : β → List α} (hwidth : ∀ c, (f c).length = width)

include hwidth

theorem flatMap_length (l : List β) : (l.flatMap f).length = l.length * width := by
  rw [length_flatMap]
  simp [hwidth]

theorem overwrite_table (front rest : List α) (l : List β) (hi : i < l.length) (b : β) :
    overwrite (front ++ l.flatMap f ++ rest) (front.length + i * width) (f b) =
      front ++ (l.set i b).flatMap f ++ rest := by
  obtain ⟨before, c, after, rfl, rfl⟩ : ∃ before c after, l = before ++ c :: after ∧
      before.length = i :=
    ⟨l.take i, l[i], l.drop (i + 1), by simp, length_take_of_le (Nat.le_of_lt hi)⟩
  have hmiddle : overwrite (front ++ before.flatMap f ++ f c ++ (after.flatMap f ++ rest))
      (front ++ before.flatMap f).length (f b) = _ :=
    overwrite_middle _ _ _ (by rw [hwidth, hwidth])
  rw [length_append, flatMap_length hwidth] at hmiddle
  simpa using hmiddle

end

theorem overwrite_length (h : pos + part.length ≤ data.length) :
    (overwrite data pos part).length = data.length := by
  simp only [overwrite, length_append, length_take, length_drop]
  omega

theorem at_overwrite (h : pos + part.length ≤ data.length) : At (overwrite data pos part) pos part :=
  ⟨data.take pos, data.drop (pos + part.length), rfl, by
    rw [length_take]
    omega⟩

/-- What does not overlap the overwritten places stays. -/
theorem At.overwrite (h : At data pos part) (hbound : pos' + part'.length ≤ data.length)
    (hapart : pos + part.length ≤ pos' ∨ pos' + part'.length ≤ pos) :
    At (overwrite data pos' part') pos part := by
  obtain ⟨before, after, rfl, rfl⟩ := h
  rcases hapart with hlow | hhigh
  · obtain ⟨k, rfl⟩ := Nat.exists_eq_add_of_le hlow
    rw [← length_append, overwrite_append_right]
    exact ⟨before, _, rfl, rfl⟩
  · rw [append_assoc, overwrite_append_left hhigh, ← append_assoc]
    exact ⟨_, after, rfl, overwrite_length hhigh⟩

end RandomAccess
