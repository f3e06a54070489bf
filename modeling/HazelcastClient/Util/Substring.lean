import Mathlib.Algebra.Group.Nat.Defs
import Mathlib.Data.List.Infix

/-!
# Searching for a substring

`find` and `rfind` give the first and the last position at which a pattern occurs in a
text, or `npos`, as the functions of `std::string` do. Compared with `0` and with the
difference of the lengths they test for a prefix and for a suffix; the difference is of
unsigned 64-bit numbers and wraps.
-/

namespace Substring

open List

/-- The greatest value of `size_t`. -/
def npos : ℕ := 2 ^ 64 - 1

/-- The difference of two numbers of type `size_t`. -/
def sizeSub (m n : ℕ) : ℕ := (m + 2 ^ 64 - n) % 2 ^ 64

theorem sizeSub_of_le {m n : ℕ} (h : n ≤ m) (hm : m < npos) : sizeSub m n = m - n := by
  unfold sizeSub
  unfold npos at hm
  omega

/-- A difference that wraps is `npos` only if the numbers differ by one. -/
theorem sizeSub_eq_npos_iff {m n : ℕ} (h : m < n) (hn : n < npos) :
    sizeSub m n = npos ↔ n = m + 1 := by
  have hn' : n < 2 ^ 64 - 1 := hn
  unfold sizeSub npos
  omega

variable {α : Type*} [DecidableEq α] {text pattern : List α}

def find (text pattern : List α) : ℕ :=
  ((List.range (text.length + 1)).find? fun i => pattern.isPrefixOf (text.drop i)).getD npos

def rfindFrom (text pattern : List α) : ℕ → ℕ
  | 0 => if pattern <+: text then 0 else npos
  | i + 1 => if pattern <+: text.drop (i + 1) then i + 1 else rfindFrom text pattern i

/-- Positions that leave no room for the pattern are not tried. -/
def rfind (text pattern : List α) : ℕ :=
  if pattern.length ≤ text.length then rfindFrom text pattern (text.length - pattern.length)
  else npos

theorem find_eq_zero_iff : find text pattern = 0 ↔ pattern <+: text := by
  unfold find
  rw [range_succ_eq_map, List.find?_cons]
  cases hfront : pattern.isPrefixOf (text.drop 0) with
  | true => simpa using hfront
  | false =>
    have hnot : ¬ pattern <+: text := by
      intro h
      rw [drop_zero, isPrefixOf_iff_prefix.mpr h] at hfront
      cases hfront
    refine iff_of_false (fun hzero => ?_) hnot
    cases hfound : (List.map Nat.succ (List.range text.length)).find?
        fun i => pattern.isPrefixOf (text.drop i) with
    | none =>
      rw [hfound] at hzero
      exact absurd hzero (by decide)
    | some i =>
      rw [hfound] at hzero
      obtain ⟨j, -, rfl⟩ := mem_map.mp (mem_of_find?_eq_some hfound)
      exact absurd hzero (Nat.succ_ne_zero j)

theorem rfindFrom_le (text pattern : List α) (i : ℕ) :
    rfindFrom text pattern i ≤ i ∨ rfindFrom text pattern i = npos := by
  induction i with
  | zero =>
    unfold rfindFrom
    split
    · exact .inl le_rfl
    · exact .inr rfl
  | succ i ih =>
    unfold rfindFrom
    split
    · exact .inl le_rfl
    · exact ih.imp_left fun h => h.trans (Nat.le_succ i)

theorem rfindFrom_eq_self_iff {i : ℕ} (hi : i < npos) :
    rfindFrom text pattern i = i ↔ pattern <+: text.drop i := by
  cases i with
  | zero =>
    unfold rfindFrom
    split
    · exact iff_of_true rfl ‹_›
    · exact iff_of_false (by decide) ‹_›
  | succ i =>
    unfold rfindFrom
    split
    · exact iff_of_true rfl ‹_›
    · refine iff_of_false (fun heq => ?_) ‹_›
      rcases rfindFrom_le text pattern i with h | h
      · omega
      · omega

theorem rfind_eq_sizeSub_iff (htext : text.length < npos) (hpattern : pattern.length < npos) :
    rfind text pattern = sizeSub text.length pattern.length ↔
      pattern <:+ text ∨ pattern.length = text.length + 1 := by
  unfold rfind
  split
  · rename_i hle
    have hroom : text.length - pattern.length < npos := by omega
    have hone : pattern.length ≠ text.length + 1 := by omega
    rw [sizeSub_of_le hle htext, rfindFrom_eq_self_iff hroom, or_iff_left hone]
    constructor
    · intro hfront
      rw [hfront.eq_of_length (by rw [length_drop]; omega)]
      exact drop_suffix _ _
    · rintro ⟨before, rfl⟩
      rw [length_append, Nat.add_sub_cancel, drop_left]
  · rename_i hlt
    rw [not_le] at hlt
    have hsuffix : ¬ pattern <:+ text := fun h => absurd h.length_le (not_le.mpr hlt)
    rw [eq_comm, sizeSub_eq_npos_iff hlt hpattern, or_iff_right hsuffix]

end Substring
