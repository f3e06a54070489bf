import Mathlib.Data.List.Nodup
import Mathlib.Data.Nat.ModEq

/-!
# Random samples of a map

The iterator of `get_random_samples` starts at a random index and goes around the entries,
past those without a value. It looks whether it is back at the start only when its inner
loop has come to a missing entry, and the inner loop does not advance the index.
-/

namespace HazelcastClient.Util

open List

/-- `LazySamplingEntryIterableIterator`; without a current index it has not started. -/
structure Sampler (E : Type) where
  maxEntryCount : ℕ
  startIndex : ℕ
  returnedEntryCount : ℕ := 0
  currentIndex : Option ℕ := none
  reachedToEnd : Bool := false
  currentSample : Option E := none

variable {E : Type} (entries : List E) (isValid : E → Bool)

def getRandomSamples (sampleCount : ℤ) (random : ℕ) : Except String (Option (Sampler E)) :=
  if sampleCount < 0 then .error "Sample count cannot be a negative value."
  else if sampleCount = 0 ∨ entries.length = 0 then .ok none
  else .ok (some { maxEntryCount := sampleCount.toNat, startIndex := random % entries.length })

namespace Sampler

/-- The inner loop, from the current entry; `none` if it still runs. -/
def findValid (index : ℕ) : ℕ → Option E → Option (Option E)
  | 0, _ => none
  | _ + 1, none => some none
  | fuel + 1, some e => if isValid e then some (some e) else findValid index fuel entries[index]?

/-- The outer loop: the entry that is found, if any, and the current index. -/
def find (startIndex : ℕ) : ℕ → ℕ → Option (Option E × ℕ)
  | 0, _ => none
  | fuel + 1, index =>
    let next := if entries.length ≤ index + 1 then 0 else index + 1
    match findValid entries isValid next fuel entries[index]? with
    | none => none
    | some (some e) => some (some e, next)
    | some none => if next ≠ startIndex then find startIndex fuel next else some (none, next)

def iterate (fuel : ℕ) (s : Sampler E) : Option (Sampler E) :=
  if s.maxEntryCount ≤ s.returnedEntryCount ∨ s.reachedToEnd then
    some { s with currentSample := none }
  else
    (find entries isValid s.startIndex fuel (s.currentIndex.getD s.startIndex)).map fun
      | (some e, next) =>
        { s with
          returnedEntryCount := s.returnedEntryCount + 1
          currentIndex := some next
          currentSample := some e }
      | (none, next) =>
        { s with currentIndex := some next, reachedToEnd := true, currentSample := none }

/-- What `next` returns as long as `has_next` does not report the end. -/
def collect : ℕ → Sampler E → Option (List E)
  | 0, _ => none
  | fuel + 1, s =>
    (iterate entries isValid fuel s).bind fun s =>
      match s.currentSample with
      | none => some []
      | some e => (collect fuel s).map (e :: ·)

variable {entries isValid} (hvalid : ∀ e ∈ entries, isValid e = true) (hpos : 0 < entries.length)

/-- The entry at a distance from the start. -/
def entryAt (start distance : ℕ) : E :=
  entries.get ⟨(start + distance) % entries.length, Nat.mod_lt _ hpos⟩

theorem entryAt_injOn (hnodup : entries.Nodup) {start a b : ℕ} (ha : a < entries.length)
    (hb : b < entries.length) (heq : entryAt hpos start a = entryAt hpos start b) : a = b := by
  have hindex := Fin.mk.inj (nodup_iff_injective_get.mp hnodup heq)
  exact (Nat.ModEq.add_left_cancel' _ hindex).eq_of_lt_of_lt ha hb

include hvalid

theorem find_eq (start distance fuel : ℕ) :
    find entries isValid start (fuel + 2) ((start + distance) % entries.length) =
      some (some (entryAt hpos start distance), (start + (distance + 1)) % entries.length) := by
  have hlt := Nat.mod_lt (start + distance) hpos
  have hnext : (if entries.length ≤ (start + distance) % entries.length + 1 then 0
      else (start + distance) % entries.length + 1) =
        (start + (distance + 1)) % entries.length := by
    rw [← Nat.add_assoc, ← Nat.mod_add_mod (start + distance)]
    generalize (start + distance) % entries.length = i at hlt ⊢
    split_ifs with h
    · rw [show i + 1 = entries.length from Nat.le_antisymm hlt h, Nat.mod_self]
    · exact (Nat.mod_eq_of_lt (Nat.lt_of_not_le h)).symm
  simp only [find, hnext, getElem?_eq_getElem hlt, findValid, hvalid _ (getElem_mem hlt), if_true]
  rfl

/-- With enough fuel the iterator returns the entries one after another. -/
theorem collect_eq (s : Sampler E) (k fuel : ℕ)
    (hcount : s.returnedEntryCount + k = s.maxEntryCount) (hend : s.reachedToEnd = false)
    (hindex : s.currentIndex.getD s.startIndex =
      (s.startIndex + s.returnedEntryCount) % entries.length) :
    s.collect entries isValid (fuel + k + 3) =
      some ((range' s.returnedEntryCount k).map (entryAt hpos s.startIndex)) := by
  induction k generalizing s with
  | zero =>
    rw [collect, iterate, if_pos (.inl (by omega))]
    rfl
  | succ k ih =>
    have hgo : ¬ (s.maxEntryCount ≤ s.returnedEntryCount ∨ s.reachedToEnd = true) := by
      simp [hend]
      omega
    rw [collect, iterate, if_neg hgo, hindex, find_eq hvalid hpos]
    simp only [Option.map_some, Option.bind_some]
    refine (congrArg (Option.map _) (ih _ ?_ ?_ ?_)).trans rfl
    · exact (Nat.add_right_comm _ 1 k).trans hcount
    · exact hend
    · rfl

theorem collect_getRandomSamples (k random : ℕ) :
    ∃ s, getRandomSamples entries (k + 1 : ℕ) random = .ok (some s) ∧
      ∀ fuel, s.collect entries isValid (fuel + (k + 1) + 3) =
        some ((range' 0 (k + 1)).map (entryAt hpos (random % entries.length))) := by
  refine ⟨{ maxEntryCount := k + 1, startIndex := random % entries.length }, ?_, fun fuel => ?_⟩
  · rw [getRandomSamples, if_neg (by omega), if_neg (by omega)]
    rfl
  · exact collect_eq hvalid hpos _ (k + 1) fuel (Nat.zero_add _) rfl (by simp)

omit hvalid

variable (entries isValid) in
/-- What is asked of the samples: as many as there can be, no entry twice, and then the end. -/
def SamplesDistinct (sampleCount random : ℕ) : Prop :=
  ∃ s samples enough, getRandomSamples entries sampleCount random = .ok (some s) ∧
    (∀ fuel, s.collect entries isValid (fuel + enough) = some samples) ∧
    samples.length = min sampleCount entries.length ∧ samples.Nodup

include hvalid hpos in
theorem SamplesDistinct.le_length {k random : ℕ}
    (h : SamplesDistinct entries isValid (k + 1) random) : k + 1 ≤ entries.length := by
  obtain ⟨s, samples, enough, hs, hsamples, hlength, -⟩ := h
  obtain ⟨s', hs', hcollect⟩ := collect_getRandomSamples hvalid hpos k random
  cases hs.symm.trans hs'
  have heq := hcollect enough
  rw [Nat.add_assoc, Nat.add_comm, hsamples] at heq
  have hcount : samples.length = k + 1 := by simp [Option.some.inj heq]
  omega

/-- The samples are distinct exactly if no more of them are asked for than there are entries. -/
theorem samplesDistinct_iff (hvalid : ∀ e ∈ entries, isValid e = true) (hpos : 0 < entries.length)
    (hnodup : entries.Nodup) (k random : ℕ) :
    SamplesDistinct entries isValid (k + 1) random ↔ k + 1 ≤ entries.length := by
  refine ⟨SamplesDistinct.le_length hvalid hpos, fun hk => ?_⟩
  obtain ⟨s, hs, hcollect⟩ := collect_getRandomSamples hvalid hpos k random
  refine ⟨s, _, k + 1 + 3, hs, hcollect, by simp [hk], ?_⟩
  refine Nodup.map_on (fun a ha b hb heq => ?_) (nodup_range' ..)
  rw [mem_range'_1] at ha hb
  exact entryAt_injOn hpos hnodup (by omega) (by omega) heq

theorem samplesDistinct_two_of_three : SamplesDistinct [1, 2, 3] (fun _ => true) 2 5 :=
  (samplesDistinct_iff (by simp) (by decide) (by decide) 1 5).mpr (by decide)

/-- A map with one entry gives it twice. -/
theorem sample_repeated :
    collect [7] (fun _ => true) 9 { maxEntryCount := 2, startIndex := 0 } = some [7, 7] ∧
      ¬ SamplesDistinct [7] (fun _ => true) 2 0 :=
  ⟨by decide, fun h => absurd (h.le_length (by simp) (by decide)) (by decide)⟩

end Sampler

end HazelcastClient.Util
