import HazelcastClient.Interleaving.Automaton
import Mathlib.Tactic.Linarith

/-!
# The delay of a retry

`execute` waits `1 << (invoke_count_ - MAX_FAST_INVOCATION_COUNT)` milliseconds before
the next attempt, but not longer than the retry pause. The number is an `int64_t`: the
shift by 63 gives the least one, and a wider shift is undefined.
-/

namespace HazelcastClient.Spi

open Interleaving

def MAX_FAST_INVOCATION_COUNT : ℕ := 5

/-- `static_cast<int64_t>(1) << n`. -/
def shiftOne (n : ℕ) : Option ℤ := if n < 64 then some (1#64 <<< n).toInt else none

/-- The delay in milliseconds, from the invoke count and the retry pause. -/
def delayMillis (retryPause : ℤ) (invokeCount : ℕ) : Option ℤ :=
  (shiftOne (invokeCount - MAX_FAST_INVOCATION_COUNT)).map (min · retryPause)

/-- An invocation whose attempts fail, with the time since it was created. -/
structure RetriedInvocation where
  invokeCount : ℕ := 1
  timePassed : ℕ := 0

/-- An attempt fails after a time, and `execute` makes the next one. A timer that is armed with
a negative delay expires at once. -/
def RetriedInvocation.execute (invocationTimeout : ℕ) (retryPause : ℤ) (v : RetriedInvocation)
    (attempt : ℕ) : Option RetriedInvocation :=
  let timePassed := v.timePassed + attempt
  if invocationTimeout < timePassed then none
  else if v.invokeCount < MAX_FAST_INVOCATION_COUNT then some ⟨v.invokeCount + 1, timePassed⟩
  else (delayMillis retryPause v.invokeCount).map fun delay =>
    ⟨v.invokeCount + 1, timePassed + delay.toNat⟩

/-- The delay is positive, not longer than the pause, and not shorter than those before. -/
def DelayInBounds (retryPause : ℤ) (invokeCount : ℕ) : Prop :=
  ∃ delay, delayMillis retryPause invokeCount = some delay ∧ 1 ≤ delay ∧ delay ≤ retryPause ∧
    ∀ earlier, MAX_FAST_INVOCATION_COUNT ≤ earlier → earlier ≤ invokeCount →
      ∃ delay', delayMillis retryPause earlier = some delay' ∧ delay' ≤ delay

theorem shiftOne_of_lt {n : ℕ} (h : n < 63) : shiftOne n = some (2 ^ n) := by
  have hall : ∀ m < 63, shiftOne m = some (2 ^ m) := by decide
  exact hall n h

theorem delayMillis_of_lt (retryPause : ℤ) {invokeCount : ℕ}
    (h : invokeCount < MAX_FAST_INVOCATION_COUNT + 63) :
    delayMillis retryPause invokeCount =
      some (min (2 ^ (invokeCount - MAX_FAST_INVOCATION_COUNT)) retryPause) := by
  have hshift : invokeCount - MAX_FAST_INVOCATION_COUNT < 63 := by omega
  rw [delayMillis, shiftOne_of_lt hshift, Option.map_some]

theorem delayInBounds_iff {retryPause : ℤ} (hpause : 1 ≤ retryPause) {invokeCount : ℕ} :
    DelayInBounds retryPause invokeCount ↔ invokeCount < MAX_FAST_INVOCATION_COUNT + 63 := by
  constructor
  · rintro ⟨delay, hdelay, hpos, -⟩
    by_contra hlarge
    obtain ⟨shifted, hshifted, rfl⟩ := Option.map_eq_some_iff.mp hdelay
    unfold shiftOne at hshifted
    split at hshifted
    · -- the only width that is left is 63, which gives the least number
      have hn : invokeCount - MAX_FAST_INVOCATION_COUNT = 63 := by omega
      rw [hn] at hshifted
      obtain rfl : (1#64 <<< 63).toInt = shifted := Option.some.inj hshifted
      have hneg : (1#64 <<< 63).toInt < 0 := by decide
      linarith [min_le_left (1#64 <<< 63).toInt retryPause]
    · cases hshifted
  · intro hlt
    refine ⟨_, delayMillis_of_lt retryPause hlt, ?_, min_le_right _ _, ?_⟩
    · exact le_min (one_le_pow₀ (by decide)) hpause
    · intro earlier _ hle
      refine ⟨_, delayMillis_of_lt retryPause (hle.trans_lt hlt), ?_⟩
      refine min_le_min_right _ (pow_le_pow_right₀ (by decide) ?_)
      omega

/-- The delays of an invocation stay in their bounds exactly when it does not live long
enough for the shift by 63. -/
theorem retry_delays_in_bounds_iff (invocationTimeout : ℕ) {retryPause : ℤ}
    (hpause : 1 ≤ retryPause) :
    (∀ v, Reaches (RetriedInvocation.execute invocationTimeout retryPause) (fun _ _ => True) {} v →
        MAX_FAST_INVOCATION_COUNT ≤ v.invokeCount → DelayInBounds retryPause v.invokeCount) ↔
      ∀ v, Reaches (RetriedInvocation.execute invocationTimeout retryPause) (fun _ _ => True) {} v →
        v.invokeCount < MAX_FAST_INVOCATION_COUNT + 63 := by
  constructor
  · intro h v hv
    by_contra hlarge
    exact hlarge ((delayInBounds_iff hpause).mp (h v hv (by omega)))
  · intro h v hv _
    exact (delayInBounds_iff hpause).mpr (h v hv)

/-- An invocation that has ten milliseconds: from the fifth attempt on, each takes one. -/
theorem retry_delays_in_bounds_short : (1 : ℤ) ≤ 1000 ∧
    ∀ v, Reaches (RetriedInvocation.execute 10 1000) (fun _ _ => True) {} v →
      MAX_FAST_INVOCATION_COUNT ≤ v.invokeCount → DelayInBounds 1000 v.invokeCount := by
  refine ⟨by decide, (retry_delays_in_bounds_iff 10 (by decide)).mpr fun v hv => ?_⟩
  suffices h : v.invokeCount ≤ 5 + v.timePassed ∧ v.invokeCount ≤ 16 from h.2.trans_lt (by decide)
  refine hv.invariant (P := fun v => v.invokeCount ≤ 5 + v.timePassed ∧ v.invokeCount ≤ 16)
    ⟨by decide, by decide⟩ ?_
  intro v₁ attempt v₂ hcount _ hexec
  unfold RetriedInvocation.execute at hexec
  dsimp only at hexec
  split_ifs at hexec with htimeout hfast
  · cases hexec
    unfold MAX_FAST_INVOCATION_COUNT at hfast
    dsimp only
    omega
  · rw [delayMillis_of_lt 1000 (hcount.2.trans_lt (by decide))] at hexec
    cases hexec
    have hpos : (1 : ℤ) ≤ 2 ^ (v₁.invokeCount - 5) := one_le_pow₀ (by decide)
    simp only [MAX_FAST_INVOCATION_COUNT]
    omega

/-- With the default settings, an invocation whose attempts fail at once gets a negative
delay after 54 seconds, less than half of its time. -/
theorem retry_delay_negative :
    ∃ v, Reaches (RetriedInvocation.execute 120000 1000) (fun _ _ => True) {} v ∧
      v.invokeCount = 68 ∧ delayMillis 1000 v.invokeCount = some (-2 ^ 63) := by
  have hexec : (execSteps (RetriedInvocation.execute 120000 1000) (fun _ _ => true) {}
      (List.replicate 67 0)).any (fun v => decide (v.invokeCount = 68)) = true := by
    decide +kernel
  obtain ⟨v, hreach, htest⟩ := Reaches.of_execSteps_any hexec
  have hcount : v.invokeCount = 68 := of_decide_eq_true htest
  exact ⟨v, hreach.always, hcount, by rw [hcount]; decide⟩

end HazelcastClient.Spi
