import Mathlib.Data.Option.Basic

/-!
# Automata

A component whose threads meet at a lock, or whose calls come one after another, has a
single state. `step s choice` is the state after an atomic step, `none` when the step is
not possible in `s`. `Reaches` restricts the steps to those that meet a condition.
-/

namespace Interleaving

variable {σ χ : Type} {choices : List χ}

/-- The states that are reached by steps that meet `ok`. -/
inductive Reaches (step : σ → χ → Option σ) (ok : σ → χ → Prop) (s : σ) : σ → Prop
  | refl : Reaches step ok s s
  | tail {s₁ s₂ : σ} {choice : χ} (h : Reaches step ok s s₁) (hok : ok s₁ choice)
      (hstep : step s₁ choice = some s₂) : Reaches step ok s s₂

section Rules

variable {step : σ → χ → Option σ} {ok ok' : σ → χ → Prop} {s s' : σ}

section

variable (h : Reaches step ok s s')

include h

theorem Reaches.invariant {P : σ → Prop} (hinit : P s)
    (hstep : ∀ {s₁ choice s₂}, P s₁ → ok s₁ choice → step s₁ choice = some s₂ → P s₂) : P s' := by
  induction h with
  | refl => exact hinit
  | tail _ hok hs ih => exact hstep ih hok hs

theorem Reaches.mono (himp : ∀ s choice, ok s choice → ok' s choice) : Reaches step ok' s s' := by
  induction h with
  | refl => exact .refl
  | tail _ hok hs ih => exact .tail ih (himp _ _ hok) hs

theorem Reaches.always : Reaches step (fun _ _ => True) s s' :=
  h.mono fun _ _ _ => trivial

end

theorem Reaches.trans {s₁ : σ} (h : Reaches step ok s s₁) (h' : Reaches step ok s₁ s') :
    Reaches step ok s s' := by
  induction h' with
  | refl => exact h
  | tail _ hok hs ih => exact .tail ih hok hs

theorem Reaches.head {s₁ : σ} {choice : χ} (hok : ok s choice) (hstep : step s choice = some s₁)
    (h : Reaches step ok s₁ s') : Reaches step ok s s' :=
  (Reaches.tail .refl hok hstep).trans h

end Rules

/-- The state after a list of steps, when all are possible and meet `ok`. -/
def execSteps (step : σ → χ → Option σ) (ok : σ → χ → Bool) : σ → List χ → Option σ
  | s, [] => some s
  | s, choice :: choices =>
    if ok s choice then (step s choice).bind fun s' => execSteps step ok s' choices else none

theorem Reaches.of_execSteps {step : σ → χ → Option σ} {ok : σ → χ → Bool} {s s' : σ}
    (h : execSteps step ok s choices = some s') :
    Reaches step (fun s choice => ok s choice = true) s s' := by
  induction choices generalizing s with
  | nil =>
    cases h
    exact .refl
  | cons choice choices ih =>
    unfold execSteps at h
    split at h
    · rename_i hok
      obtain ⟨s₁, hstep, hrest⟩ := Option.bind_eq_some_iff.mp h
      exact Reaches.head hok hstep (ih hrest)
    · cases h

theorem Reaches.of_execSteps_any {step : σ → χ → Option σ} {ok : σ → χ → Bool} {s : σ}
    {test : σ → Bool} (h : (execSteps step ok s choices).any test = true) :
    ∃ s', Reaches step (fun s choice => ok s choice = true) s s' ∧ test s' = true := by
  rw [Option.any_eq_true] at h
  obtain ⟨s', hexec, htest⟩ := h
  exact ⟨s', .of_execSteps hexec, htest⟩

end Interleaving
