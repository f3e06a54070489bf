import HazelcastClient.Interleaving.Machine

/-!
# Loops of compare and exchange

Threads share a cell that points to an object nobody changes. A call reads the cell,
computes from the object it has found which one is to take its place, if any, and
exchanges the two if the cell still points to what it has read; otherwise it starts
over.

The cell keeps the objects that have been in it. An exchange puts in a new object, and
an object that a call still holds is not freed, so the number of exchanges before it
serves as its address. `Run.cellInvariant` says that a call takes effect in a single
step, however the threads are interleaved.
-/

namespace Interleaving

open List

variable {ι α : Type}

structure Cell (α : Type) where
  current : α
  /-- What was in the cell before, the newest first. -/
  past : List α := []

namespace Cell

def history (c : Cell α) : List α := c.current :: c.past

def install (c : Cell α) (new : α) : Cell α := ⟨new, c.history⟩

@[simp] theorem history_install (c : Cell α) (new : α) :
    (c.install new).history = new :: c.history := rfl

end Cell

/-- The places of a call: before it reads the cell, and before it exchanges the object it
has seen for a new one. -/
inductive ExchangeFrame (ι α : Type) where
  | load (call : ι)
  | exchange (call : ι) (seen : ℕ) (new : α)

def ExchangeFrame.call : ExchangeFrame ι α → ι
  | load call => call
  | exchange call _ _ => call

inductive CallEvent (ι : Type) where
  | called (call : ι)
  | returned (call : ι)
  deriving DecidableEq

/-- One step of a call that wants `update` of the object it has seen; with `none` it
returns and leaves the cell alone. -/
def exchangeStep (update : ι → α → Option α) (c : Cell α) :
    ExchangeFrame ι α → Effect (Cell α) Unit (ExchangeFrame ι α) (CallEvent ι)
  | .load call =>
    match update call c.current with
    | none => { shared := c, event := some (.returned call) }
    | some new => { shared := c, next := [.exchange call c.past.length new] }
  | .exchange call seen new =>
    if seen = c.past.length then
      { shared := c.install new, event := some (.returned call) }
    else { shared := c, next := [.load call] }

def exchangeLoop (update : ι → α → Option α) :
    Machine (Cell α) Unit (ExchangeFrame ι α) ι (CallEvent ι) where
  fire c _ _ f := some (exchangeStep update c f)
  outside c call :=
    some { shared := c, spawned := [⟨(), [.load call]⟩], event := some (.called call) }

def Config.ofCell (a : α) : Config (Cell α) Unit (ExchangeFrame ι α) := ⟨⟨a, []⟩, []⟩

/-- What a frame knows: as long as the cell has not changed, its new object is the one
that belongs there. -/
def ExchangeFrame.Fits (update : ι → α → Option α) (c : Cell α) : ExchangeFrame ι α → Prop
  | load _ => True
  | exchange call seen new =>
    seen ≤ c.past.length ∧ (seen = c.past.length → update call c.current = some new)

variable {f : ExchangeFrame ι α}

theorem ExchangeFrame.Fits.install {update : ι → α → Option α} {c : Cell α} (h : f.Fits update c)
    (new : α) : f.Fits update (c.install new) := by
  cases f with
  | load call => trivial
  | exchange call seen obj =>
    have hold : seen < (c.install new).past.length := Nat.lt_succ_of_le h.1
    exact ⟨hold.le, fun heq => absurd heq hold.ne⟩

def Known (update : ι → α → Option α) (events : List (CallEvent ι)) (c : Cell α)
    (frames : List (ExchangeFrame ι α)) : Prop :=
  ∀ f ∈ frames, f.Fits update c ∧ .called f.call ∈ events

namespace Known

variable {update : ι → α → Option α} {events : List (CallEvent ι)} {c : Cell α}
  {frames : List (ExchangeFrame ι α)}

section

variable (h : Known update events c frames)

include h

theorem append (more : List (CallEvent ι)) : Known update (events ++ more) c frames :=
  fun f hf => ⟨(h f hf).1, mem_append_left _ (h f hf).2⟩

theorem install (new : α) : Known update events (c.install new) frames :=
  fun f hf => ⟨(h f hf).1.install new, (h f hf).2⟩

theorem cons (hfits : f.Fits update c) (hcalled : .called f.call ∈ events) :
    Known update events c (f :: frames) := by
  intro g hg
  rcases mem_cons.mp hg with rfl | hg
  · exact ⟨hfits, hcalled⟩
  · exact h g hg

end

end Known

section Rule

variable {update : ι → α → Option α} {a : α} {events : List (CallEvent ι)}
  {ok : Config (Cell α) Unit (ExchangeFrame ι α) → Move (ExchangeFrame ι α) ι → Prop}
  {c' : Config (Cell α) Unit (ExchangeFrame ι α)} {P : List (CallEvent ι) → Cell α → Prop}
  (hkept : ∀ {es c call}, P es c → .called call ∈ es → update call c.current = none →
    P (es ++ [.returned call]) c)
  (hinstalled : ∀ {es c call new}, P es c → .called call ∈ es →
    update call c.current = some new → P (es ++ [.returned call]) (c.install new))

include hkept hinstalled

/-- One step of a call: it reads the cell, tries in vain, or takes effect. -/
theorem exchangeStep_invariant {c : Cell α} {others : List (ExchangeFrame ι α)}
    (hp : P events c) (hknown : Known update events c (f :: others)) :
    P (events ++ (exchangeStep update c f).event.toList) (exchangeStep update c f).shared ∧
      Known update (events ++ (exchangeStep update c f).event.toList)
        (exchangeStep update c f).shared
        ((exchangeStep update c f).next ++ (exchangeStep update c f).spawnedFrames ++ others) := by
  obtain ⟨hfits, hcall⟩ := hknown f mem_cons_self
  have hothers : Known update events c others := fun g hg => hknown g (mem_cons_of_mem _ hg)
  cases f with
  | load call =>
    cases hup : update call c.current with
    | none =>
      simp only [exchangeStep, hup]
      exact ⟨hkept hp hcall hup, hothers.append _⟩
    | some new =>
      simp only [exchangeStep, hup, Option.toList_none, append_nil]
      exact ⟨hp, hothers.cons ⟨le_rfl, fun _ => hup⟩ hcall⟩
  | exchange call seen new =>
    by_cases hseen : seen = c.past.length
    · simp only [exchangeStep, hseen, ↓reduceIte]
      exact ⟨hinstalled hp hcall (hfits.2 hseen), (hothers.install new).append _⟩
    · simp only [exchangeStep, hseen, ↓reduceIte, Option.toList_none, append_nil]
      exact ⟨hp, hothers.cons trivial hcall⟩

/-- Every call is atomic: what survives the start of a call, a call that leaves the cell
alone and one that installs its object holds in every state. -/
theorem Run.cellInvariant
    (h : Run (exchangeLoop update) ok (.ofCell a) events c') (hinit : P [] ⟨a, []⟩)
    (hcalled : ∀ {es c call}, P es c.shared → ok c (.outside call) →
      P (es ++ [.called call]) c.shared) : P events c'.shared := by
  have hall : P events c'.shared ∧ Known update events c'.shared c'.frames := by
    refine h.frameInvariant (P := fun es s l => P es s ∧ Known update es s l) ?_ ?_ ?_ ?_
    · rintro es s l l' hperm ⟨hp, hknown⟩
      exact ⟨hp, fun f hf => hknown f (hperm.mem_iff.mpr hf)⟩
    · refine ⟨hinit, fun f hf => ?_⟩
      cases hf
    · rintro es c₁ f choice others threads e _ _ ⟨hp, hknown⟩ _ hfire
      cases hfire
      exact exchangeStep_invariant hkept hinstalled hp hknown
    · rintro es c₁ call e - ⟨hp, hknown⟩ hok hout
      cases hout
      refine ⟨hcalled hp hok, fun g hg => ?_⟩
      rcases mem_append.mp hg with hold | hnew
      · exact hknown.append _ g hold
      · obtain rfl : g = .load call := by simpa [Effect.spawnedFrames] using hnew
        exact ⟨trivial, mem_append_right _ mem_cons_self⟩
  exact hall.1

omit hkept hinstalled

theorem Run.of_call {c : Config (Cell α) Unit (ExchangeFrame ι α)} {call : ι} {new : α}
    (hok : ∀ c f choice, ok c (.frame f choice)) (hcall : ok c (.outside call))
    (h : update call c.shared.current = some new) :
    Run (exchangeLoop update) ok c [.called call, .returned call]
      ⟨c.shared.install new, c.threads ++ [⟨(), []⟩]⟩ := by
  obtain ⟨cell, threads⟩ := c
  have hstart : (exchangeLoop update).outside cell call =
      some { shared := cell, spawned := [⟨(), [.load call]⟩], event := some (.called call) } := rfl
  have hload : (exchangeLoop update).fire cell threads call (.load call) =
      some { shared := cell, next := [.exchange call cell.past.length new] } := by
    simp only [exchangeLoop, exchangeStep, h]
  have hexchange : (exchangeLoop update).fire cell threads call
      (.exchange call cell.past.length new) =
      some { shared := cell.install new, event := some (.returned call) } := by
    simp only [exchangeLoop, exchangeStep, ↓reduceIte]
  have h₁ : Step (exchangeLoop update) ⟨cell, threads⟩ (.outside call) (some (.called call))
      ⟨cell, threads ++ [⟨(), [.load call]⟩]⟩ := Step.outside threads call hstart
  have h₂ : Step (exchangeLoop update) ⟨cell, threads ++ [⟨(), [.load call]⟩]⟩
      (.frame (.load call) call) none
      ⟨cell, threads ++ [⟨(), [.exchange call cell.past.length new]⟩]⟩ :=
    Step.frame threads [] () (.load call) [] call (by rwa [append_nil])
  have h₃ : Step (exchangeLoop update)
      ⟨cell, threads ++ [⟨(), [.exchange call cell.past.length new]⟩]⟩
      (.frame (.exchange call cell.past.length new) call) (some (.returned call))
      ⟨cell.install new, threads ++ [⟨(), []⟩]⟩ :=
    Step.frame threads [] () (.exchange call cell.past.length new) [] call
      (by rwa [append_nil])
  exact Run.tail (Run.tail (Run.tail (Run.refl _) hcall h₁) (hok _ _ _) h₂) (hok _ _ _) h₃

end Rule

end Interleaving
