import Mathlib.Data.List.Basic
import Mathlib.Data.List.Count

/-!
# Maps whose keys are shared objects

A map that keeps its keys by shared pointers compares what the objects hold. A key
object that somebody else changes is found under its new content and no longer
under the old one, and two keys may have the same content afterwards.

`find`, `put` and `remove` go to the first entry with the content. `contents` are
the contents of the keys; statements about repeated keys count in this list.
-/

namespace Aliasing

open List

structure Pointer (α : Type) where
  object : ℕ
  content : α
  deriving DecidableEq

variable {α β : Type} {p : Pointer α} {g : α → α} {object : ℕ}

def Pointer.modify (object : ℕ) (g : α → α) (p : Pointer α) : Pointer α :=
  if p.object = object then { p with content := g p.content } else p

theorem Pointer.modify_of_eq (h : p.object = object) :
    p.modify object g = { p with content := g p.content } :=
  if_pos h

theorem Pointer.modify_of_ne (h : p.object ≠ object) : p.modify object g = p :=
  if_neg h

@[simp] theorem Pointer.modify_object (object : ℕ) (g : α → α) (p : Pointer α) :
    (p.modify object g).object = p.object := by
  unfold Pointer.modify
  split <;> rfl

theorem Pointer.modify_content (object : ℕ) (g : α → α) (p : Pointer α) :
    (p.modify object g).content = p.content ∨
      p.object = object ∧ (p.modify object g).content = g p.content := by
  by_cases h : p.object = object
  · exact .inr ⟨h, by rw [modify_of_eq h]⟩
  · exact .inl (by rw [modify_of_ne h])

abbrev PointerMap (α β : Type) := List (Pointer α × β)

namespace PointerMap

def contents (m : PointerMap α β) : List α := m.map fun e => e.1.content

def modifyKeys (object : ℕ) (g : α → α) (m : PointerMap α β) : PointerMap α β :=
  m.map fun e => (e.1.modify object g, e.2)

def mapValues (g : β → β) (m : PointerMap α β) : PointerMap α β := m.map fun e => (e.1, g e.2)

section Operations

variable [DecidableEq α]

def find : PointerMap α β → α → Option β
  | [], _ => none
  | e :: m, a => if e.1.content = a then some e.2 else find m a

/-- The key of an entry that is there already stays. -/
def put : PointerMap α β → Pointer α → β → PointerMap α β
  | [], p, b => [(p, b)]
  | e :: m, p, b => if e.1.content = p.content then (e.1, b) :: m else e :: put m p b

def remove : PointerMap α β → α → PointerMap α β
  | [], _ => []
  | e :: m, a => if e.1.content = a then m else e :: remove m a

end Operations

@[simp] theorem contents_nil : contents ([] : PointerMap α β) = [] := rfl

@[simp] theorem contents_cons (e : Pointer α × β) (m : PointerMap α β) :
    contents (e :: m) = e.1.content :: contents m := rfl

@[simp] theorem contents_mapValues (g : β → β) (m : PointerMap α β) :
    contents (mapValues g m) = contents m := by
  simp [contents, mapValues]

variable {m : PointerMap α β} {e : Pointer α × β} {a : α} {p : Pointer α}

theorem mem_mapValues {g : β → β} :
    e ∈ mapValues g m ↔ ∃ e' ∈ m, (e'.1, g e'.2) = e :=
  mem_map

theorem mem_modifyKeys : e ∈ modifyKeys object g m ↔ ∃ e' ∈ m, (e'.1.modify object g, e'.2) = e :=
  mem_map

theorem length_contents (m : PointerMap α β) : (contents m).length = m.length :=
  length_map _

theorem modifyKeys_cons (object : ℕ) (g : α → α) (e : Pointer α × β) (m : PointerMap α β) :
    modifyKeys object g (e :: m) = (e.1.modify object g, e.2) :: modifyKeys object g m := rfl

theorem modifyKeys_of_fixed (h : ∀ e ∈ m, e.1.object = object → g e.1.content = e.1.content) :
    modifyKeys object g m = m := by
  induction m with
  | nil => rfl
  | cons e m ih =>
    have hkey : e.1.modify object g = e.1 := by
      by_cases hobject : e.1.object = object
      · rw [Pointer.modify_of_eq hobject, h e mem_cons_self hobject]
      · exact Pointer.modify_of_ne hobject
    rw [modifyKeys_cons, ih fun x hx => h x (mem_cons_of_mem e hx), hkey]

theorem mapValues_of_fixed {g : β → β} (h : ∀ e ∈ m, g e.2 = e.2) :
    mapValues g m = m := by
  have hmap : m.map (fun e => (e.1, g e.2)) = m.map id :=
    map_congr_left fun e he => by rw [h e he, id]
  rw [mapValues, hmap, map_id]

variable [DecidableEq α] {b : β}

theorem find_cons (e : Pointer α × β) (m : PointerMap α β) (a : α) :
    find (e :: m) a = if e.1.content = a then some e.2 else find m a := rfl

theorem put_cons (e : Pointer α × β) (m : PointerMap α β) (p : Pointer α) (b : β) :
    put (e :: m) p b = if e.1.content = p.content then (e.1, b) :: m else e :: put m p b := rfl

theorem remove_cons (e : Pointer α × β) (m : PointerMap α β) (a : α) :
    remove (e :: m) a = if e.1.content = a then m else e :: remove m a := rfl

theorem find_eq_none_iff : find m a = none ↔ a ∉ contents m := by
  induction m with
  | nil => simp [find]
  | cons e m ih =>
    by_cases h : e.1.content = a
    · simp [find_cons, h]
    · simp [find_cons, h, ih, Ne.symm h]

/-! ## Lookups after an operation -/

@[simp] theorem find_put_self (m : PointerMap α β) (p : Pointer α) (b : β) :
    find (put m p b) p.content = some b := by
  induction m with
  | nil => simp [put, find]
  | cons e m ih =>
    rw [put_cons]
    split_ifs with hkey
    · rw [find_cons, if_pos hkey]
    · rw [find_cons, if_neg hkey, ih]

theorem find_put_of_ne (m : PointerMap α β) (b : β) (h : a ≠ p.content) :
    find (put m p b) a = find m a := by
  induction m with
  | nil => simp [put, find, h.symm]
  | cons e m ih =>
    rw [put_cons]
    split_ifs with hkey
    · have hne : e.1.content ≠ a := fun heq => h (heq.symm.trans hkey)
      rw [find_cons, find_cons, if_neg hne, if_neg hne]
    · rw [find_cons, find_cons, ih]

theorem find_remove_of_ne (m : PointerMap α β) {a' : α} (h : a' ≠ a) :
    find (remove m a) a' = find m a' := by
  induction m with
  | nil => rfl
  | cons e m ih =>
    rw [remove_cons]
    split_ifs with hkey
    · rw [find_cons, if_neg fun heq => h (heq.symm.trans hkey)]
    · rw [find_cons, find_cons, ih]

theorem find_mapValues (g : β → β) (m : PointerMap α β) (a : α) :
    find (mapValues g m) a = (find m a).map g := by
  induction m with
  | nil => rfl
  | cons e m ih =>
    change find ((e.1, g e.2) :: mapValues g m) a = _
    rw [find_cons, find_cons, ih]
    split_ifs <;> rfl

/-! ## The contents after an operation -/

theorem contents_put (m : PointerMap α β) (p : Pointer α) (b : β) :
    contents (put m p b) =
      if p.content ∈ contents m then contents m else contents m ++ [p.content] := by
  induction m with
  | nil => rfl
  | cons e m ih =>
    rw [put_cons]
    by_cases hkey : e.1.content = p.content
    · simp [hkey]
    · rw [if_neg hkey, contents_cons, contents_cons, ih]
      by_cases hmem : p.content ∈ contents m
      · simp [hmem]
      · simp [hmem, Ne.symm hkey]

theorem contents_remove (m : PointerMap α β) (a : α) :
    contents (remove m a) = (contents m).erase a := by
  induction m with
  | nil => rfl
  | cons e m ih =>
    rw [remove_cons, contents_cons, erase_cons]
    by_cases hkey : e.1.content = a
    · simp [hkey]
    · simp [hkey, ih]

theorem find_remove_self (h : (contents m).count a ≤ 1) :
    find (remove m a) a = none := by
  rw [find_eq_none_iff, contents_remove, ← count_eq_zero, count_erase_self]
  omega

theorem count_le_one_of_find_remove (h : find (remove m a) a = none) :
    (contents m).count a ≤ 1 := by
  rw [find_eq_none_iff, contents_remove, ← count_eq_zero, count_erase_self] at h
  omega

theorem length_put (m : PointerMap α β) (p : Pointer α) (b : β) :
    (put m p b).length = m.length + if p.content ∈ contents m then 0 else 1 := by
  rw [← length_contents, contents_put, ← length_contents]
  split_ifs
  · rfl
  · simp

theorem put_of_not_mem (h : p.content ∉ contents m) : put m p b = m ++ [(p, b)] := by
  induction m with
  | nil => rfl
  | cons e m ih =>
    rw [contents_cons, mem_cons, not_or] at h
    rw [put_cons, if_neg (Ne.symm h.1), ih h.2, cons_append]

theorem mem_put (h : e ∈ put m p b) :
    e ∈ m ∨ e.2 = b ∧ (e.1 = p ∧ p.content ∉ contents m ∨ ∃ b', (e.1, b') ∈ m) := by
  by_cases hmem : p.content ∈ contents m
  · induction m with
    | nil => exact absurd hmem (by simp)
    | cons x m ih =>
      rw [put_cons] at h
      split_ifs at h with hkey
      · rcases mem_cons.mp h with rfl | hold
        · exact .inr ⟨rfl, .inr ⟨x.2, mem_cons_self⟩⟩
        · exact .inl (mem_cons_of_mem x hold)
      · have hmem' := (mem_cons.mp hmem).resolve_left (Ne.symm hkey)
        rcases mem_cons.mp h with rfl | hrest
        · exact .inl mem_cons_self
        · rcases ih hrest hmem' with hold | ⟨hval, ⟨-, hnot⟩ | ⟨b', hb'⟩⟩
          · exact .inl (mem_cons_of_mem x hold)
          · exact absurd hmem' hnot
          · exact .inr ⟨hval, .inr ⟨b', mem_cons_of_mem x hb'⟩⟩
  · rw [put_of_not_mem hmem] at h
    rcases mem_append.mp h with hold | hnew
    · exact .inl hold
    · cases mem_singleton.mp hnew
      exact .inr ⟨rfl, .inl ⟨rfl, hmem⟩⟩

theorem mem_of_mem_remove (h : e ∈ remove m a) : e ∈ m := by
  induction m with
  | nil => exact h
  | cons x m ih =>
    rw [remove_cons] at h
    split_ifs at h with hkey
    · exact mem_cons_of_mem x h
    · rcases mem_cons.mp h with rfl | hrest
      · exact mem_cons_self
      · exact mem_cons_of_mem x (ih hrest)

theorem remove_of_not_mem (h : a ∉ contents m) :
    remove m a = m := by
  induction m with
  | nil => rfl
  | cons e m ih =>
    rw [contents_cons, mem_cons, not_or] at h
    rw [remove_cons, if_neg (Ne.symm h.1), ih h.2]

/-! ## A change of a key object -/

section Modify

variable {object : ℕ} {g : α → α} {a : α}

theorem count_modifyKeys_le (m : PointerMap α β) (h : ∀ x, g x = a → x = a) :
    (contents (modifyKeys object g m)).count a ≤ (contents m).count a := by
  induction m with
  | nil => exact Nat.le_refl 0
  | cons e m ih =>
    rw [modifyKeys_cons, contents_cons, contents_cons, count_cons, count_cons]
    refine Nat.add_le_add ih ?_
    rcases e.1.modify_content object g with hsame | ⟨-, hnew⟩
    · exact Nat.le_of_eq (by rw [hsame])
    · by_cases hg : g e.1.content = a
      · exact Nat.le_of_eq (by rw [hnew, hg, h _ hg])
      · simp [hnew, hg]

theorem le_count_modifyKeys (m : PointerMap α β) (h : g a = a) :
    (contents m).count a ≤ (contents (modifyKeys object g m)).count a := by
  induction m with
  | nil => exact Nat.le_refl 0
  | cons e m ih =>
    rw [modifyKeys_cons, contents_cons, contents_cons, count_cons, count_cons]
    refine Nat.add_le_add ih ?_
    by_cases hkey : e.1.content = a
    · rcases e.1.modify_content object g with hsame | ⟨-, hnew⟩
      · exact Nat.le_of_eq (by rw [hsame])
      · simp [hnew, hkey, h]
    · simp [hkey]

/-- What is found was found before, or its key has changed into the content. -/
theorem find_modifyKeys {m : PointerMap α β} (hcount : g a ≠ a → (contents m).count a ≤ 1)
    (h : find (modifyKeys object g m) a = some b) :
    find m a = some b ∨ ∃ p, (p, b) ∈ m ∧ p.object = object ∧ g p.content = a := by
  induction m with
  | nil => exact absurd h (by simp [modifyKeys, find])
  | cons e m ih =>
    rw [contents_cons, count_cons] at hcount
    have hrest := ih fun hne => Nat.le_trans (Nat.le_add_right _ _) (hcount hne)
    rw [modifyKeys_cons, find_cons] at h
    by_cases hkey : e.1.content = a
    · split_ifs at h with hnew
      · cases h
        exact .inl (by rw [find_cons, if_pos hkey])
      · -- the only key with the content has left it
        have hleft : g a ≠ a := by
          rcases e.1.modify_content object g with hsame | ⟨-, hchanged⟩
          · exact absurd (hsame.trans hkey) hnew
          · intro hfix
            exact hnew (by rw [hchanged, hkey, hfix])
        have hzero : (contents m).count a = 0 := by
          have hone := hcount hleft
          rw [hkey, beq_self_eq_true, if_pos rfl] at hone
          omega
        rcases hrest h with hfind | ⟨p, hp, hchanged⟩
        · rw [find_eq_none_iff.mpr (count_eq_zero.mp hzero)] at hfind
          cases hfind
        · exact .inr ⟨p, mem_cons_of_mem e hp, hchanged⟩
    · split_ifs at h with hnew
      · cases h
        rcases e.1.modify_content object g with hsame | ⟨hobject, hchanged⟩
        · exact absurd (hsame.symm.trans hnew) hkey
        · exact .inr ⟨e.1, mem_cons_self, hobject, hchanged.symm.trans hnew⟩
      · rw [find_cons, if_neg hkey]
        refine (hrest h).imp_right ?_
        rintro ⟨p, hp, hchanged⟩
        exact ⟨p, mem_cons_of_mem e hp, hchanged⟩

end Modify

end PointerMap

end Aliasing
