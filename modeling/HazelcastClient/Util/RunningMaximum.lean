import Mathlib.Data.Finset.Max

/-!
# The last two maxima of a scan

`leaders score l` are the elements of `l` with the greatest score, if that is not negative.
A scan that keeps the last element with the best score so far, and the one before it, ends
with the last two leaders (`scan_eq`).
-/

namespace RunningMaximum

open List

variable {α : Type*} {score : α → ℤ} {l : List α}

/-- The elements with the greatest score. A negative score does not count. -/
def leaders (score : α → ℤ) (l : List α) : List α :=
  l.filter fun a => decide (0 ≤ score a) && l.all fun b => decide (score b ≤ score a)

theorem mem_leaders {a : α} :
    a ∈ leaders score l ↔ a ∈ l ∧ 0 ≤ score a ∧ ∀ b ∈ l, score b ≤ score a := by
  simp [leaders]

theorem leaders_congr {score' : α → ℤ} (h : ∀ a ∈ l, score a = score' a) :
    leaders score l = leaders score' l := by
  refine filter_congr fun a ha => ?_
  rw [h a ha]
  congr 1
  rw [Bool.eq_iff_iff, all_eq_true, all_eq_true]
  refine forall₂_congr fun b hb => ?_
  rw [h b hb]

theorem exists_leader (score : α → ℤ) {a : α} (ha : a ∈ l) (hscore : 0 ≤ score a) :
    ∃ b ∈ leaders score l, score a ≤ score b := by
  classical
  obtain ⟨b, hb, hmax⟩ := l.toFinset.exists_max_image score ⟨a, mem_toFinset.mpr ha⟩
  simp only [mem_toFinset] at hb hmax
  exact ⟨b, mem_leaders.mpr ⟨hb, le_trans hscore (hmax a ha), hmax⟩, hmax a ha⟩

/-- The candidate, the one it has displaced with the same score, and that score. -/
structure Scan (α : Type*) where
  candidate : Option α := none
  duplicate : Option α := none
  last : ℤ := -1

def Scan.step (score : α → ℤ) (s : Scan α) (a : α) : Scan α :=
  if -1 < score a ∧ s.last ≤ score a then
    { candidate := some a
      duplicate := if score a = s.last then s.candidate else none
      last := score a }
  else s

def scan (score : α → ℤ) (l : List α) : Scan α := l.foldl (Scan.step score) {}

/-- An element behind the others joins the leaders, replaces them, or comes to nothing. -/
theorem leaders_concat (score : α → ℤ) (l : List α) (a : α) :
    leaders score (l ++ [a]) =
      if 0 ≤ score a ∧ ∀ b ∈ l, score b ≤ score a then
        (leaders score l).filter (fun b => decide (score b = score a)) ++ [a]
      else leaders score l := by
  unfold leaders
  rw [filter_append]
  split
  · rename_i hbest
    have hlast : [a].filter (fun b => decide (0 ≤ score b) &&
        (l ++ [a]).all fun c => decide (score c ≤ score b)) = [a] := by
      simpa using hbest
    rw [hlast, filter_filter]
    congr 1
    refine filter_congr fun b hb => ?_
    -- nobody in `l` is better than `a`
    have hle : score a ≤ score b ↔ score b = score a :=
      ⟨fun h => le_antisymm (hbest.2 b hb) h, fun h => h.ge⟩
    rw [Bool.eq_iff_iff]
    simp [hle, and_left_comm, and_comm]
  · rename_i hbeaten
    have hlast : [a].filter (fun b => decide (0 ≤ score b) &&
        (l ++ [a]).all fun c => decide (score c ≤ score b)) = [] := by
      simpa using hbeaten
    rw [hlast, append_nil]
    refine filter_congr fun b hb => ?_
    -- a leader of `l` is not worse than `a`
    have hle : 0 ≤ score b → (∀ c ∈ l, score c ≤ score b) → score a ≤ score b := by
      intro h0 hmax
      by_contra hlt
      rw [not_le] at hlt
      exact hbeaten ⟨le_trans h0 hlt.le, fun c hc => le_trans (hmax c hc) hlt.le⟩
    rw [Bool.eq_iff_iff]
    simp only [Bool.and_eq_true, decide_eq_true_eq, all_append, all_eq_true, forall_mem_singleton]
    exact and_congr_right fun h0 => and_iff_left_of_imp (hle h0)

/-- Leaders have the same score, and it bounds all others. -/
theorem score_le_of_getLast? {c : α} (h : (leaders score l).getLast? = some c) :
    0 ≤ score c ∧ (∀ b ∈ l, score b ≤ score c) ∧ ∀ b ∈ leaders score l, score b = score c := by
  obtain ⟨hc, h0, hmax⟩ := mem_leaders.mp (mem_of_getLast? h)
  refine ⟨h0, hmax, fun b hb => ?_⟩
  obtain ⟨hbl, -, hbmax⟩ := mem_leaders.mp hb
  exact le_antisymm (hmax b hbl) (hbmax c hc)

theorem score_lt_of_leaders_eq_nil (h : leaders score l = []) {b : α} (hb : b ∈ l) :
    score b < 0 := by
  by_contra hge
  obtain ⟨c, hc, -⟩ := exists_leader score hb (not_lt.mp hge)
  rw [h] at hc
  cases hc

/-- The scan keeps the last two leaders. -/
theorem scan_eq (score : α → ℤ) (l : List α) :
    scan score l =
      { candidate := (leaders score l).getLast?
        duplicate := (leaders score l).dropLast.getLast?
        last := (leaders score l).getLast?.elim (-1) score } := by
  induction l using List.reverseRecOn with
  | nil => rfl
  | append_singleton l a ih =>
    rw [scan, foldl_append]
    change Scan.step score (scan score l) a = _
    rw [ih, leaders_concat, Scan.step]
    cases hlast : (leaders score l).getLast? with
    | none =>
      have hnil := List.getLast?_eq_none_iff.mp hlast
      have hcond : (-1 < score a ∧ (none : Option α).elim (-1) score ≤ score a) ↔
          (0 ≤ score a ∧ ∀ b ∈ l, score b ≤ score a) := by
        constructor
        · rintro ⟨h, -⟩
          have h0 : 0 ≤ score a := h
          exact ⟨h0, fun b hb => ((score_lt_of_leaders_eq_nil hnil hb).trans_le h0).le⟩
        · rintro ⟨h0, -⟩
          exact ⟨by omega, by simpa using (by omega : -1 ≤ score a)⟩
      simp only [hcond, hnil, filter_nil, nil_append]
      split
      · rename_i hbest
        have hne : score a ≠ -1 := by omega
        simp [hne]
      · simp
    | some c =>
      obtain ⟨h0, hmax, hsame⟩ := score_le_of_getLast? hlast
      have hcond : (-1 < score a ∧ (some c).elim (-1) score ≤ score a) ↔
          (0 ≤ score a ∧ ∀ b ∈ l, score b ≤ score a) := by
        have hc := (mem_leaders.mp (mem_of_getLast? hlast)).1
        constructor
        · rintro ⟨h, hle⟩
          exact ⟨h, fun b hb => (hmax b hb).trans hle⟩
        · rintro ⟨h, hle⟩
          exact ⟨by omega, hle c hc⟩
      simp only [hcond]
      split
      · rename_i hbest
        by_cases heq : score a = score c
        · -- `a` joins the leaders
          have hfilter : (leaders score l).filter (fun b => decide (score b = score a)) =
              leaders score l :=
            filter_eq_self.mpr fun b hb => by simp [hsame b hb, heq]
          rw [hfilter]
          simp [heq, hlast]
        · -- `a` is better than they are
          have hfilter : (leaders score l).filter (fun b => decide (score b = score a)) = [] :=
            filter_eq_nil_iff.mpr fun b hb => by simp [hsame b hb, Ne.symm heq]
          simp [hfilter, heq]
      · simp [hlast]

end RunningMaximum
