import HazelcastClient.Util.RandomAccess
import Mathlib.Algebra.BigOperators.Group.List.Basic
import Mathlib.Algebra.Order.Ring.Nat

/-!
# Consecutive placement

`place size start l` puts the items of a list one after another, each at the position
where the one before it ends. The positions are separate and stay inside the total size.
With items of size one the positions are numbers, counted from `start`.
-/

namespace Layout

open List

variable {α : Type*} (size : α → ℕ)

def place : ℕ → List α → List (α × ℕ)
  | _, [] => []
  | start, a :: l => (a, start) :: place (start + size a) l

def total (l : List α) : ℕ := (l.map size).sum

@[simp] theorem place_nil (start : ℕ) : place size start [] = [] := rfl

@[simp] theorem total_nil : total size [] = 0 := rfl

@[simp] theorem total_cons (a : α) (l : List α) : total size (a :: l) = size a + total size l := by
  simp [total]

@[simp] theorem total_one (l : List α) : total (fun _ => 1) l = l.length := by
  simp [total]

variable {l : List α}

theorem total_perm {l' : List α} (h : l.Perm l') : total size l = total size l' :=
  (h.map size).sum_eq

@[simp] theorem place_map_fst (start : ℕ) (l : List α) : (place size start l).map Prod.fst = l := by
  induction l generalizing start with
  | nil => rfl
  | cons a l ih => rw [place, map_cons, ih]

variable {start : ℕ} {p : α × ℕ} {β : Type*}

theorem fst_mem_of_mem_place (h : p ∈ place size start l) :
    p.1 ∈ l := by
  rw [← place_map_fst size start l]
  exact mem_map_of_mem h

theorem exists_getElem?_place (start : ℕ) {j : ℕ} {a : α} (h : l[j]? = some a) :
    ∃ pos, (place size start l)[j]? = some (a, pos) := by
  rw [← place_map_fst size start l, List.getElem?_map, Option.map_eq_some_iff] at h
  obtain ⟨⟨b, pos⟩, hplace, rfl⟩ := h
  exact ⟨pos, hplace⟩

theorem bounds_of_mem_place (h : p ∈ place size start l) :
    start ≤ p.2 ∧ p.2 + size p.1 ≤ start + total size l := by
  induction l generalizing start with
  | nil => cases h
  | cons a l ih =>
    rw [total_cons]
    rcases mem_cons.mp h with rfl | htail
    · dsimp only
      omega
    · have hbounds := ih htail
      omega

/-- An item ends before the ones that come later. -/
theorem place_separate (start : ℕ) (l : List α) :
    (place size start l).Pairwise fun p q => p.2 + size p.1 ≤ q.2 := by
  induction l generalizing start with
  | nil => exact List.Pairwise.nil
  | cons a l ih =>
    refine pairwise_cons.mpr ⟨?_, ih _⟩
    intro q hq
    exact (bounds_of_mem_place size hq).1

theorem place_one_map_snd (start : ℕ) (l : List α) :
    (place (fun _ => 1) start l).map Prod.snd = List.range' start l.length := by
  induction l generalizing start with
  | nil => rfl
  | cons a l ih => rw [place, map_cons, ih, length_cons, List.range'_succ]

theorem length_flatMap_place {f : α × ℕ → List β} {width : α → ℕ}
    (hf : ∀ p, (f p).length = width p.1) (start : ℕ) (l : List α) :
    ((place size start l).flatMap f).length = total width l := by
  induction l generalizing start with
  | nil => rfl
  | cons a l ih => rw [place, flatMap_cons, length_append, hf, ih, total_cons]

theorem at_place {f : α → ℕ → List β} (hf : ∀ a pos, (f a pos).length = size a) {data : List β}
    (h : RandomAccess.At data start ((place size start l).flatMap fun p => f p.1 p.2)) {a : α}
    {pos : ℕ} (hmem : (a, pos) ∈ place size start l) : RandomAccess.At data pos (f a pos) := by
  induction l generalizing start with
  | nil => cases hmem
  | cons b l ih =>
    rw [place, flatMap_cons] at h
    rcases mem_cons.mp hmem with heq | htail
    · cases heq
      exact h.left
    · have hrest := h.right
      rw [hf] at hrest
      exact ih hrest htail

end Layout
