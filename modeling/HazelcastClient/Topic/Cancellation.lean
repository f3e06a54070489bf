import Mathlib.Data.List.Count
import HazelcastClient.Interleaving.Automaton
import HazelcastClient.Topic.MessageRunner

/-!
# How a listener of a reliable topic ends

The chain of continuations of a `MessageRunner` ends when the runner is cancelled. It also ends
when an exception is not caught: the handlers catch an `iexception` only, and nothing catches
what is thrown inside a handler, as by `head_sequence`.

`cancel` stores the flag, removes the runner from `runners_map_` and calls `on_cancel_`. It is
called by the chain, by `remove_message_listener`, and by `on_shutdown` and `on_destroy`, which
clear the map before; each of the three actions is a step.
-/

namespace HazelcastClient.Topic

open Interleaving List
open Option hiding sequence

/-- What is thrown: an `iexception`, or anything else. -/
inductive Thrown where
  | iexception (code : ErrorCode)
  | other
  deriving DecidableEq

/-- The next action of a call of `cancel`. -/
inductive CancelStep where
  | store
  | remove
  | call
  deriving DecidableEq

/-- Where the chain is; `guarded` tells whether it is inside the outer `try` block. -/
inductive Place (M : Type) where
  | next (guarded : Bool)
  | reading
  | resume (result : Except Thrown (ReadResultSet M))
  | item (result : ReadResultSet M) (index : ℕ)
  | terminate (result : ReadResultSet M) (index : ℕ)
  | handleInternalException (code : ErrorCode)
  | headSequence
  | cancel (guarded : Bool) (step : CancelStep)

/-- A runner, its chain and the calls of `cancel` by other threads. -/
structure Lifecycle (M : Type) where
  runner : Runner
  chain : Option (Place M)
  callers : List CancelStep := []
  onCancelCalls : ℕ := 0
  /-- `finest` messages are logged -/
  finest : Bool := false

namespace Lifecycle

variable {M : Type}

inductive Choice (M : Type) where
  | go
  | threw (t : Thrown)
  /-- a read ends -/
  | response (result : ReadResultSet M)
  | failed (t : Thrown)
  /-- `terminal_` of the listener and `head_sequence` return -/
  | terminal (answer : Bool)
  | head (sequence : ℤ)
  /-- the calls by other threads -/
  | removeMessageListener
  | clear
  | caller (c : CancelStep)

def cancelled (s : Lifecycle M) : Bool := s.runner.cancelled

def goto (s : Lifecycle M) (p : Place M) : Lifecycle M := { s with chain := some p }

def ended (s : Lifecycle M) : Lifecycle M := { s with chain := none }

/-- The handler of the outer `try` block. -/
def caught (guarded : Bool) : Thrown → Option (Place M)
  | .iexception code => if guarded then some (.handleInternalException code) else none
  | .other => none

def raise (s : Lifecycle M) (guarded : Bool) (t : Thrown) : Lifecycle M :=
  { s with chain := caught guarded t }

def withSequence (s : Lifecycle M) (sequence : ℤ) : Lifecycle M :=
  { s with runner := { s.runner with sequence } }

/-- One action of `cancel`, and the one after it. -/
def act (s : Lifecycle M) : CancelStep → Lifecycle M × Option CancelStep
  | .store => ({ s with runner := { s.runner with cancelled := true } }, some .remove)
  | .remove => ({ s with runner := { s.runner with registered := false } }, some .call)
  | .call => ({ s with onCancelCalls := s.onCancelCalls + 1 }, none)

def stepResume (s : Lifecycle M) (result : Except Thrown (ReadResultSet M)) : Lifecycle M :=
  if s.cancelled then s.ended
  else
    match result with
    | .error t => s.raise true t
    | .ok result =>
      if s.runner.lostCount result ≠ 0 ∧ s.runner.lossTolerant = false then
        s.goto (.cancel true .store)
      else s.goto (.item result 0)

/-- The calls of the listener for one item. Without a sequence for the item there is an
`illegal_argument`. -/
def stepItem (s : Lifecycle M) (result : ReadResultSet M) (index : ℕ) :
    Choice M → Option (Lifecycle M)
  | .go =>
    if index < result.items.length then
      if (result.getSequence index).isSome then some (s.goto (.item result (index + 1)))
      else some (s.goto (.terminate result index))
    else some ((s.withSequence result.nextSeq).goto (.next true))
  | .threw (.iexception _) =>
    if index < result.items.length then some (s.goto (.terminate result index)) else none
  | .threw .other => if index < result.items.length then some s.ended else none
  | _ => none

/-- A `terminal_` that throws an `iexception` counts as `true`. -/
def stepTerminate (s : Lifecycle M) (result : ReadResultSet M) (index : ℕ) :
    Choice M → Option (Lifecycle M)
  | .go => if s.cancelled then some (s.goto (.cancel true .store)) else none
  | .terminal answer =>
    if s.cancelled then none
    else if answer then some (s.goto (.cancel true .store))
    else some (s.goto (.item result (index + 1)))
  | .threw (.iexception _) => if s.cancelled then none else some (s.goto (.cancel true .store))
  | .threw .other => if s.cancelled then none else some s.ended
  | _ => none

def stepHandleInternalException (s : Lifecycle M) : ErrorCode → Lifecycle M
  | .timeout => s.goto (.next false)
  | .illegalArgument => s.goto .headSequence
  | _ => s.goto (.cancel false .store)

/-- The message for a loss-tolerant listener has more arguments than places, so that
`boost::format` throws when it is logged. -/
def stepHeadSequence (s : Lifecycle M) : Choice M → Option (Lifecycle M)
  | .head sequence =>
    if s.runner.lossTolerant then
      if s.finest then some s.ended else some ((s.withSequence sequence).goto (.next false))
    else some (s.goto (.cancel false .store))
  | .threw _ => some s.ended
  | _ => none

def stepCancel (s : Lifecycle M) (guarded : Bool) (c : CancelStep) : Choice M → Option (Lifecycle M)
  | .go => some { (s.act c).1 with chain := (s.act c).2.map (Place.cancel guarded) }
  | .threw t => if c = .call then some ((s.act c).1.raise guarded t) else none
  | _ => none

def stepChain (s : Lifecycle M) (choice : Choice M) : Place M → Option (Lifecycle M)
  | .next guarded =>
    match choice with
    | .go => some (if s.cancelled then s.ended else s.goto .reading)
    | .threw t => if s.cancelled then none else some (s.raise guarded t)
    | _ => none
  | .reading =>
    match choice with
    | .response result => some (s.goto (.resume (.ok result)))
    | .failed t => some (s.goto (.resume (.error t)))
    | _ => none
  | .resume result =>
    match choice with
    | .go => some (s.stepResume result)
    | _ => none
  | .item result index => s.stepItem result index choice
  | .terminate result index => s.stepTerminate result index choice
  | .handleInternalException code =>
    match choice with
    | .go => some (s.stepHandleInternalException code)
    | _ => none
  | .headSequence => s.stepHeadSequence choice
  | .cancel guarded c => s.stepCancel guarded c choice

/-- A call of `cancel` by another thread goes on; it has the runner already. -/
def stepCaller (s : Lifecycle M) (c : CancelStep) : Option (Lifecycle M) :=
  if c ∈ s.callers then
    some { (s.act c).1 with callers := (s.act c).2.toList ++ s.callers.erase c }
  else none

def step (s : Lifecycle M) : Choice M → Option (Lifecycle M)
  | .removeMessageListener =>
    some (if s.runner.registered then { s with callers := s.callers ++ [.store] } else s)
  | .clear =>
    some (if s.runner.registered then
      { s with
        runner := { s.runner with registered := false }
        callers := s.callers ++ [.store] }
    else s)
  | .caller c => s.stepCaller c
  | choice => s.chain.bind (s.stepChain choice)

def start (lossTolerant finest : Bool) (batchSize initial : ℤ) : Lifecycle M where
  runner := { lossTolerant := lossTolerant, batchSize := batchSize, sequence := initial }
  chain := some (.next false)
  finest := finest

/-! ## Proper ends -/

/-- Nothing catches it. -/
def uncaught (guarded : Bool) : Thrown → Bool
  | .iexception _ => !guarded
  | .other => true

/-- The step lets an exception out of the chain. -/
def escapesAt (s : Lifecycle M) : Place M → Choice M → Bool
  | .next guarded, .threw t => uncaught guarded t
  | .resume (.error .other), .go => true
  | .item _ _, .threw .other => true
  | .terminate _ _, .threw .other => true
  | .headSequence, .threw _ => true
  | .headSequence, .head _ => s.runner.lossTolerant && s.finest
  | .cancel guarded .call, .threw t => uncaught guarded t
  | _, _ => false

def escapes (s : Lifecycle M) (choice : Choice M) : Bool :=
  s.chain.any fun p => s.escapesAt p choice

/-- The step is the first one of a call of `cancel`. -/
def begins (s : Lifecycle M) : Choice M → Bool
  | .go => s.chain.any fun
      | .cancel _ .store => true
      | _ => false
  | .caller c => c = .store
  | _ => false

/-- No exception leaves the chain before the runner is cancelled, and `cancel` is not called
again after that. -/
structure Proper (s : Lifecycle M) (choice : Choice M) : Prop where
  escape : s.escapes choice = true → s.cancelled = true
  begin : s.begins choice = true → s.cancelled = false

instance (s : Lifecycle M) (choice : Choice M) : Decidable (s.Proper choice) :=
  decidable_of_iff ((s.escapes choice = true → s.cancelled = true) ∧
    (s.begins choice = true → s.cancelled = false))
    ⟨fun h => ⟨h.1, h.2⟩, fun h => ⟨h.escape, h.begin⟩⟩

/-- A call of `cancel` that has stored the flag has yet to call `on_cancel_`. -/
def owesStep : CancelStep → Bool
  | .store => false
  | _ => true

def owesPlace : Place M → Bool
  | .cancel _ c => owesStep c
  | _ => false

/-- The calls of `on_cancel_` that will follow. -/
def owed (s : Lifecycle M) : ℕ :=
  s.callers.countP owesStep + (s.chain.any owesPlace).toNat

/-- The chain goes on until the runner is cancelled, and `on_cancel_` is called once if it is
cancelled and not at all otherwise. -/
structure Ends (s : Lifecycle M) : Prop where
  cancelled_of_ended : s.chain = none → s.cancelled = true
  once : s.onCancelCalls + s.owed = s.cancelled.toNat

section Steps

variable {s s' : Lifecycle M} {choice : Choice M} {p : Place M} {guarded : Bool} {t : Thrown}
  {result : ReadResultSet M} {index : ℕ} {c : CancelStep}

theorem caught_eq_none :
    (caught guarded t : Option (Place M)) = none ↔ uncaught guarded t = true := by
  cases t with
  | other => simp [caught, uncaught]
  | iexception code => cases guarded <;> simp [caught, uncaught]

theorem owes_caught (guarded : Bool) (t : Thrown) :
    (caught guarded t : Option (Place M)).any owesPlace = false := by
  cases t with
  | other => rfl
  | iexception code => cases guarded <;> rfl

/-- A step of the chain outside of `cancel`. -/
structure Moves (s s' : Lifecycle M) : Prop where
  cancelled : s'.cancelled = s.cancelled
  callers : s'.callers = s.callers
  calls : s'.onCancelCalls = s.onCancelCalls
  owes : s'.chain.any owesPlace = false

theorem Moves.goto (s : Lifecycle M) (h : owesPlace p = false) : Moves s (s.goto p) :=
  ⟨rfl, rfl, rfl, h⟩

theorem Moves.ended (s : Lifecycle M) : Moves s s.ended := ⟨rfl, rfl, rfl, rfl⟩

theorem Moves.raise (s : Lifecycle M) (guarded : Bool) (t : Thrown) : Moves s (s.raise guarded t) :=
  ⟨rfl, rfl, rfl, owes_caught guarded t⟩

theorem Moves.ends (h : Moves s s') (howes : s.chain.any owesPlace = false) (hends : s.Ends) :
    s'.Ends ↔ (s'.chain = none → s.cancelled = true) := by
  have howed : s'.owed = s.owed := by
    rw [owed, owed, h.callers, h.owes, howes]
  constructor
  · intro h' hnone
    rw [← h.cancelled]
    exact h'.cancelled_of_ended hnone
  · intro h'
    refine ⟨fun hnone => ?_, ?_⟩
    · rw [h.cancelled]
      exact h' hnone
    · rw [h.calls, howed, h.cancelled]
      exact hends.once

/-- The chain ends before the runner is cancelled only by an exception. -/
structure MovesAt (p : Place M) (choice : Choice M) (s s' : Lifecycle M) : Prop where
  moves : Moves s s'
  ended_iff : (s'.chain = none → s.cancelled = true) ↔
    (s.escapesAt p choice = true → s.cancelled = true)

theorem MovesAt.goto {q : Place M} (hq : owesPlace q = false)
    (h : s.escapesAt p choice = false) : MovesAt p choice s (s.goto q) where
  moves := .goto s hq
  ended_iff := iff_of_true nofun fun hescape => absurd (h ▸ hescape) Bool.false_ne_true

theorem MovesAt.goto_next {sequence : ℤ} (h : s.escapesAt p choice = false) :
    MovesAt p choice s ((s.withSequence sequence).goto (.next guarded)) where
  moves := ⟨rfl, rfl, rfl, rfl⟩
  ended_iff := iff_of_true nofun fun hescape => absurd (h ▸ hescape) Bool.false_ne_true

theorem MovesAt.ended (h : s.cancelled = true) : MovesAt p choice s s.ended where
  moves := .ended s
  ended_iff := iff_of_true (fun _ => h) fun _ => h

theorem MovesAt.escaped (h : s.escapesAt p choice = true) : MovesAt p choice s s.ended where
  moves := .ended s
  ended_iff := ⟨fun hended _ => hended rfl, fun hescape _ => hescape h⟩

theorem MovesAt.raise (h : s.escapesAt p choice = uncaught guarded t) :
    MovesAt p choice s (s.raise guarded t) where
  moves := .raise s guarded t
  ended_iff := by
    rw [h, ← caught_eq_none (M := M)]
    exact Iff.rfl

theorem movesAt_resume (result : Except Thrown (ReadResultSet M)) :
    MovesAt (.resume result) .go s (s.stepResume result) := by
  fun_cases stepResume s result
  · exact .ended ‹_›
  · rename_i t
    cases t <;> exact .raise rfl
  · exact .goto rfl rfl
  · exact .goto rfl rfl

theorem movesAt_item (h : s.stepItem result index choice = some s') :
    MovesAt (.item result index) choice s s' := by
  revert h
  fun_cases stepItem s result index choice <;> rintro ⟨⟩
  case case3 => exact .goto_next rfl
  case case6 => exact .escaped rfl
  all_goals exact .goto rfl rfl

theorem movesAt_terminate (h : s.stepTerminate result index choice = some s') :
    MovesAt (.terminate result index) choice s s' := by
  revert h
  fun_cases stepTerminate s result index choice <;> rintro ⟨⟩
  case case9 => exact .escaped rfl
  all_goals exact .goto rfl rfl

theorem movesAt_headSequence (h : s.stepHeadSequence choice = some s') :
    MovesAt .headSequence choice s s' := by
  revert h
  fun_cases stepHeadSequence s choice <;> rintro ⟨⟩
  case case1 hloss hfinest => exact .escaped (by rw [escapesAt, hloss, hfinest]; rfl)
  case case2 hfinest => exact .goto_next (by simp [escapesAt, hfinest])
  case case3 hloss => exact .goto rfl (by simp [escapesAt, hloss])
  case case4 => exact .escaped rfl

theorem movesAt_stepChain (hp : ∀ guarded c, p ≠ .cancel guarded c)
    (h : s.stepChain choice p = some s') : MovesAt p choice s s' := by
  revert h
  fun_cases stepChain s choice p
  case case10 => exact movesAt_item
  case case11 => exact movesAt_terminate
  case case14 => exact movesAt_headSequence
  case case15 => exact absurd rfl (hp _ _)
  all_goals rintro ⟨⟩
  case case1 =>
    split
    · exact .ended ‹_›
    · exact .goto rfl rfl
  case case3 => exact .raise rfl
  case case8 => exact movesAt_resume _
  case case12 code => cases code <;> exact .goto rfl rfl
  all_goals exact .goto rfl rfl

theorem Ends.cancelled_of_owed (h : s.Ends) (howed : 0 < s.owed) : s.cancelled = true := by
  have honce := h.once
  cases hflag : s.cancelled with
  | true => rfl
  | false =>
    rw [hflag, Bool.toNat_false] at honce
    omega

theorem owed_of_chain (hchain : s.chain = some p) (hp : owesPlace p = true) :
    s.owed = s.callers.countP owesStep + 1 := by
  rw [owed, hchain, any_some, hp, Bool.toNat_true]

theorem ends_addCaller (registered : Bool) (hends : s.Ends) :
    Ends { s with
      runner := { s.runner with registered }
      callers := s.callers ++ [.store] } where
  cancelled_of_ended := hends.cancelled_of_ended
  once := by
    have honce := hends.once
    simpa [owed, owesStep, cancelled] using honce

theorem proper_outside (hchoice : choice = .removeMessageListener ∨ choice = .clear) :
    s.Proper choice := by
  have hescape : s.escapes choice = false := by
    unfold escapes
    cases s.chain with
    | none => rfl
    | some p => rcases hchoice with rfl | rfl <;> cases p <;> simp [escapesAt]
  refine ⟨fun htrue => absurd (hescape ▸ htrue) nofun, fun hbegin => ?_⟩
  rcases hchoice with rfl | rfl <;> cases hbegin

section

variable (hends : s.Ends)

include hends

theorem ends_store (hcancelled : s'.cancelled = true) (hcalls : s'.onCancelCalls = s.onCancelCalls)
    (howed : s'.owed = s.owed + 1) : s'.Ends ↔ s.cancelled = false := by
  have honce := hends.once
  constructor
  · intro h
    have honce' := h.once
    rw [hcancelled, hcalls, howed, Bool.toNat_true] at honce'
    cases hflag : s.cancelled with
    | false => rfl
    | true =>
      rw [hflag, Bool.toNat_true] at honce
      omega
  · intro h
    rw [h, Bool.toNat_false] at honce
    refine ⟨fun _ => hcancelled, ?_⟩
    rw [hcancelled, hcalls, howed, Bool.toNat_true]
    omega

theorem ends_of_owed (howes : 0 < s.owed) (hcancelled : s'.cancelled = s.cancelled)
    (hsum : s'.onCancelCalls + s'.owed = s.onCancelCalls + s.owed) : s'.Ends where
  cancelled_of_ended _ := hcancelled.trans (hends.cancelled_of_owed howes)
  once := by rw [hsum, hcancelled, hends.once]

theorem ends_stepCancel (hchain : s.chain = some (.cancel guarded c))
    (h : s.stepCancel guarded c choice = some s') : s'.Ends ↔ s.Proper choice := by
  cases choice with
  | go =>
    cases h
    cases c with
    | store =>
      have howed : s.owed = s.callers.countP owesStep := by
        rw [owed, hchain]
        rfl
      have hproper : s.Proper .go ↔ s.cancelled = false := by
        refine ⟨fun hproper => hproper.begin ?_, fun hflag => ⟨?_, fun _ => hflag⟩⟩
        · simp [begins, hchain]
        · simp [escapes, hchain, escapesAt]
      rw [hproper]
      refine ends_store hends rfl rfl ?_
      rw [howed]
      rfl
    | remove | call =>
      have howed := owed_of_chain hchain rfl
      refine iff_of_true (ends_of_owed hends (howed ▸ Nat.succ_pos _) rfl ?_) ⟨?_, ?_⟩
      · rw [howed]
        simp only [owed, act, map_some, map_none, any_some, any_none, owesPlace, owesStep,
          Bool.toNat_true, Bool.toNat_false] <;> omega
      · simp [escapes, hchain, escapesAt]
      · simp [begins, hchain]
  | threw t =>
    simp only [stepCancel, ite_none_right_eq_some, Option.some.injEq] at h
    obtain ⟨rfl, rfl⟩ := h
    have howed := owed_of_chain hchain rfl
    have hcancelled := hends.cancelled_of_owed (howed ▸ Nat.succ_pos _)
    refine iff_of_true (ends_of_owed hends (howed ▸ Nat.succ_pos _) rfl ?_)
      ⟨fun _ => hcancelled, nofun⟩
    have howed' : ((s.act .call).1.raise guarded t).owed = s.callers.countP owesStep := by
      rw [owed, raise, owes_caught]
      rfl
    rw [howed, howed', ← Nat.add_assoc, Nat.add_right_comm]
    rfl
  | _ => cases h

theorem ends_stepCaller (h : s.stepCaller c = some s') : s'.Ends ↔ s.Proper (.caller c) := by
  simp only [stepCaller, ite_none_right_eq_some, Option.some.injEq] at h
  obtain ⟨hmem, rfl⟩ := h
  have hescape : s.escapes (.caller c) = false := by
    unfold escapes
    cases s.chain with
    | none => rfl
    | some p => cases p <;> simp [escapesAt]
  have hproper : s.Proper (.caller c) ↔ (c = .store → s.cancelled = false) := by
    constructor
    · intro hproper hc
      exact hproper.begin (decide_eq_true hc)
    · intro hc
      exact ⟨fun htrue => absurd (hescape ▸ htrue) Bool.false_ne_true,
        fun hbegin => hc (of_decide_eq_true hbegin)⟩
  have hcount := countP_erase owesStep s.callers c
  have howing (hc : owesStep c = true) :
      (s.callers.erase c).countP owesStep = s.callers.countP owesStep - 1 := by
    simpa [hc, hmem] using hcount
  rw [hproper]
  cases c with
  | store =>
    have howed : s.callers.countP owesStep = (s.callers.erase .store).countP owesStep := by
      simpa [owesStep] using hcount.symm
    rw [forall_prop_of_true rfl]
    refine ends_store hends rfl rfl ?_
    simp only [owed, act, toList_some, singleton_append, countP_cons, howed,
      owesStep, if_true]
    omega
  | remove | call =>
    have hpos : 0 < s.callers.countP owesStep := countP_pos_iff.mpr ⟨_, hmem, rfl⟩
    refine iff_of_true (ends_of_owed hends (by unfold owed; omega) rfl ?_) nofun
    simp only [owed, act, toList_some, toList_none, singleton_append, nil_append, countP_cons,
      howing rfl, owesStep, if_true]
    omega

theorem ends_stepChain (hchain : s.chain = some p) (h : s.stepChain choice p = some s') :
    s'.Ends ↔ s.Proper choice := by
  by_cases hcancel : ∃ guarded c, p = .cancel guarded c
  · obtain ⟨guarded, c, rfl⟩ := hcancel
    exact ends_stepCancel hends hchain h
  · have hne : ∀ guarded c, p ≠ .cancel guarded c := fun guarded c hp => hcancel ⟨guarded, c, hp⟩
    have howes : s.chain.any owesPlace = false := by
      rw [hchain]
      cases p <;> first | rfl | exact absurd rfl (hne _ _)
    have hmoves := movesAt_stepChain hne h
    rw [hmoves.moves.ends howes hends, hmoves.ended_iff]
    have hescapes : s.escapes choice = s.escapesAt p choice := by
      rw [escapes, hchain, any_some]
    have hbegins : s.begins choice = false := by
      cases choice with
      | go =>
        rw [begins, hchain]
        cases p <;> first | rfl | exact absurd rfl (hne _ _)
      | caller c => cases p <;> cases h
      | _ => rfl
    exact ⟨fun hescape => ⟨hescapes ▸ hescape, fun hbegin => absurd (hbegins ▸ hbegin) nofun⟩,
      fun hproper => hescapes ▸ hproper.escape⟩

/-- A step keeps what has to hold just when it is proper. -/
theorem ends_step (h : s.step choice = some s') : s'.Ends ↔ s.Proper choice := by
  cases choice with
  | removeMessageListener =>
    cases h
    refine iff_of_true ?_ (proper_outside (.inl rfl))
    split
    · exact ends_addCaller s.runner.registered hends
    · exact hends
  | clear =>
    cases h
    refine iff_of_true ?_ (proper_outside (.inr rfl))
    split
    · exact ends_addCaller false hends
    · exact hends
  | caller c => exact ends_stepCaller hends h
  | go | threw | response | failed | terminal | head =>
    obtain ⟨p, hchain, hstep⟩ := bind_eq_some_iff.mp h
    exact ends_stepChain hends hchain hstep

end

theorem ends_start (lossTolerant finest : Bool) (batchSize initial : ℤ) :
    (start lossTolerant finest batchSize initial : Lifecycle M).Ends :=
  ⟨nofun, rfl⟩

/-- As long as no exception leaves the chain before the runner is cancelled, and `cancel` is
called only then, the listener ends as it should. The first other step breaks that. -/
theorem ends_of_proper {lossTolerant finest : Bool} {batchSize initial : ℤ}
    (h : Reaches step Proper (start lossTolerant finest batchSize initial) s) :
    s.Ends ∧ ∀ choice s', s.step choice = some s' → (s'.Ends ↔ s.Proper choice) := by
  have hends : s.Ends := h.invariant (ends_start lossTolerant finest batchSize initial)
    fun hs hproper hstep => (ends_step hs hstep).mpr hproper
  exact ⟨hends, fun choice s' hstep => ends_step hends hstep⟩

end Steps

/-- A read that fails ends the listener, and it is told so. -/
theorem ends_of_proper_failure :
    ∃ s : Lifecycle Unit, Reaches step Proper (start false false 10 0) s ∧ s.Ends ∧
      s.chain.isNone = true ∧ s.onCancelCalls = 1 := by
  have hexec : (execSteps step (fun s c => decide (Proper s c))
      (start false false 10 0 : Lifecycle Unit)
      [.go, .failed (.iexception (.other 7)), .go, .go, .go, .go, .go]).any
      (fun s => s.chain.isNone ∧ s.onCancelCalls = 1) = true := by decide +kernel
  obtain ⟨s, hreach, htest⟩ := Reaches.of_execSteps_any hexec
  have hproper : Reaches step Proper (start false false 10 0) s :=
    hreach.mono fun _ _ hok => of_decide_eq_true hok
  rw [decide_eq_true_eq] at htest
  exact ⟨s, hproper, (ends_of_proper hproper).1, htest.1, htest.2⟩

def oneItem : ReadResultSet Unit := ⟨1, [()], [0], 1⟩

/-- A listener that throws something else than an `iexception` gets no more messages, and is not
told. When it is removed while it handles a message, and then throws an `iexception`,
`on_cancel_` is called twice. -/
theorem stops_silently_or_cancelled_twice :
    (∃ s : Lifecycle Unit, Reaches step (fun _ _ => True) (start false false 10 0) s ∧
      s.chain.isNone = true ∧ s.cancelled = false ∧ s.callers = []) ∧
    (∃ s : Lifecycle Unit, Reaches step (fun _ _ => True) (start false false 10 0) s ∧
      s.chain.isNone = true ∧ s.callers = [] ∧ s.onCancelCalls = 2) := by
  have hsilent : (execSteps step (fun _ _ => true) (start false false 10 0)
      [.go, .response oneItem, .go, .threw .other]).any
      (fun s => s.chain.isNone ∧ s.cancelled = false ∧ s.callers = []) = true := by decide +kernel
  have htwice : (execSteps step (fun _ _ => true) (start false false 10 0)
      [.go, .response oneItem, .go, .removeMessageListener, .caller .store, .caller .remove,
        .caller .call, .threw (.iexception .timeout), .go, .go, .go, .go]).any
      (fun s => s.chain.isNone ∧ s.callers = [] ∧ s.onCancelCalls = 2) = true := by decide +kernel
  obtain ⟨s, hreach, htest⟩ := Reaches.of_execSteps_any hsilent
  obtain ⟨s', hreach', htest'⟩ := Reaches.of_execSteps_any htwice
  rw [decide_eq_true_eq] at htest htest'
  exact ⟨⟨s, hreach.always, htest⟩,
    ⟨s', hreach'.always, htest'⟩⟩

end Lifecycle

end HazelcastClient.Topic
