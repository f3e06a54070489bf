import Mathlib.Data.Finset.Basic

/-!
# Logs of changes to a set

An observer of a set is told of its changes: the set is replaced, an element is
added, an element is removed. `replay s log` is the set that the observer has
after the log, starting from `s`; `Legal s log` says that nothing is added that is
there already and nothing removed that is not there.
-/

namespace Replay

open List Finset

inductive Change (α : Type*) where
  | reset (s : Finset α)
  | add (a : α)
  | remove (a : α)

variable {α : Type*} [DecidableEq α] (s : Finset α) (l : List α) (log log' : List (Change α))

def Change.apply (s : Finset α) : Change α → Finset α
  | .reset s' => s'
  | .add a => insert a s
  | .remove a => s.erase a

def Change.Fits (s : Finset α) : Change α → Prop
  | .reset _ => True
  | .add a => a ∉ s
  | .remove a => a ∈ s

def replay (s : Finset α) (log : List (Change α)) : Finset α := log.foldl Change.apply s

def Legal : Finset α → List (Change α) → Prop
  | _, [] => True
  | s, c :: log => c.Fits s ∧ Legal (c.apply s) log

@[simp] theorem replay_nil (s : Finset α) : replay s [] = s := rfl

@[simp] theorem replay_cons (s : Finset α) (c : Change α) (log : List (Change α)) :
    replay s (c :: log) = replay (c.apply s) log := rfl

theorem replay_append : replay s (log ++ log') = replay (replay s log) log' :=
  foldl_append ..

theorem legal_append : Legal s (log ++ log') ↔ Legal s log ∧ Legal (replay s log) log' := by
  induction log generalizing s with
  | nil => simp [Legal]
  | cons c log ih => simp [Legal, ih, and_assoc]

theorem Legal.fits {s : Finset α} {before after : List (Change α)} {c : Change α}
    (h : Legal s (before ++ c :: after)) : c.Fits (replay s before) :=
  ((legal_append s before (c :: after)).mp h).2.1

theorem replay_removes : replay s (l.map .remove) = s \ l.toFinset := by
  induction l generalizing s with
  | nil => simp
  | cons a l ih =>
    rw [List.map_cons, replay_cons, ih]
    ext x
    simp only [Change.apply, toFinset_cons, mem_sdiff, mem_erase,
      mem_insert]
    tauto

theorem replay_adds : replay s (l.map .add) = s ∪ l.toFinset := by
  induction l generalizing s with
  | nil => simp
  | cons a l ih =>
    rw [List.map_cons, replay_cons, ih]
    ext x
    simp only [Change.apply, toFinset_cons, mem_union, mem_insert]
    tauto

theorem legal_removes (hnodup : l.Nodup) (h : ∀ a ∈ l, a ∈ s) : Legal s (l.map .remove) := by
  induction l generalizing s with
  | nil => trivial
  | cons a l ih =>
    obtain ⟨ha, hl⟩ := nodup_cons.mp hnodup
    refine ⟨h a mem_cons_self, ih _ hl fun b hb => ?_⟩
    exact mem_erase.mpr ⟨fun heq => ha (heq ▸ hb), h b (mem_cons_of_mem _ hb)⟩

theorem legal_adds (hnodup : l.Nodup) (h : ∀ a ∈ l, a ∉ s) : Legal s (l.map .add) := by
  induction l generalizing s with
  | nil => trivial
  | cons a l ih =>
    obtain ⟨ha, hl⟩ := nodup_cons.mp hnodup
    refine ⟨h a mem_cons_self, ih _ hl fun b hb => ?_⟩
    rw [Change.apply, mem_insert, not_or]
    exact ⟨fun heq => ha (heq ▸ hb), h b (mem_cons_of_mem _ hb)⟩

end Replay
