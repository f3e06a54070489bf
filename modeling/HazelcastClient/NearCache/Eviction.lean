import Mathlib.Data.Prod.Lex

/-!
# The choice of an entry to evict

The comparators put the entry first that was used least recently, or least often, and of
two such entries the older one. `evaluate` goes through the sampled candidates once. It
returns a candidate that has expired as soon as it meets one, and otherwise the candidate
that the comparator puts first. The first candidate is selected without a look at its
expiration time.
-/

namespace HazelcastClient.NearCache

open List

def TIME_NOT_SET : ℤ := -1

/-- `AbstractNearCacheRecord`; the times are milliseconds. -/
structure HeapRecord (V : Type) where
  value : V
  creationTime : ℤ
  expirationTime : ℤ := TIME_NOT_SET
  accessTime : ℤ := TIME_NOT_SET
  accessHit : ℤ := 0
  deriving DecidableEq

/-- The values of `eviction_policy` that have a comparator; `NONE` has none. -/
inductive EvictionPolicy where
  | lru
  | lfu
  | random
  deriving DecidableEq

/-- The entry with the higher priority to be evicted: the constants of
`EvictionPolicyComparator`. -/
inductive Priority where
  | first
  | second
  | both
  deriving DecidableEq

section Compare

variable {V : Type}

def HeapRecord.isExpiredAt (r : HeapRecord V) (now : ℤ) : Bool :=
  TIME_NOT_SET < r.expirationTime ∧ r.expirationTime ≤ now

/-- The lower value first, and of equal values the older entry. -/
def compareThenOldest (value : HeapRecord V → ℤ) (e₁ e₂ : HeapRecord V) : Priority :=
  if value e₂ < value e₁ then .second
  else if value e₁ < value e₂ then .first
  else if e₂.creationTime < e₁.creationTime then .second
  else if e₁.creationTime < e₂.creationTime then .first
  else .both

/-- `compare` of `LRUEvictionPolicyComparator`, `LFUEvictionPolicyComparator` and
`RandomEvictionPolicyComparator`. -/
def EvictionPolicy.compare : EvictionPolicy → HeapRecord V → HeapRecord V → Priority
  | .lru => compareThenOldest HeapRecord.accessTime
  | .lfu => compareThenOldest HeapRecord.accessHit
  | .random => fun _ _ => .both

/-- The entries in the order of eviction. -/
def evictionRank (value : HeapRecord V → ℤ) (e : HeapRecord V) : ℤ ×ₗ ℤ :=
  toLex (value e, e.creationTime)

theorem compareThenOldest_eq_second_iff (value : HeapRecord V → ℤ) (e₁ e₂ : HeapRecord V) :
    compareThenOldest value e₁ e₂ = .second ↔ evictionRank value e₂ < evictionRank value e₁ := by
  rw [evictionRank, evictionRank, Prod.Lex.toLex_lt_toLex]
  fun_cases compareThenOldest <;> simp <;> omega

end Compare

section Evaluate

variable {C : Type} (compare : C → C → Priority) (isExpired : C → Bool)

/-- The loop of `evaluate`, from the candidate selected so far. -/
def evaluateFrom : Option C → List C → Option C
  | selected, [] => selected
  | none, c :: cs => evaluateFrom (some c) cs
  | some selected, c :: cs =>
    if isExpired c then some c
    else evaluateFrom (some (if compare selected c = .second then c else selected)) cs

/-- `DefaultEvictionPolicyEvaluator::evaluate`; without candidates there is no vector. -/
def evaluate (candidates : List C) : Option (List C) :=
  (evaluateFrom compare isExpired none candidates).map fun c => [c]

variable {compare isExpired} {rank : C → ℤ ×ₗ ℤ} {s : C} {cs : List C}

theorem evaluateFrom_of_expired (h : ∃ c ∈ cs, isExpired c = true) :
    ∃ c ∈ cs, evaluateFrom compare isExpired (some s) cs = some c ∧ isExpired c = true := by
  induction cs generalizing s with
  | nil => simp at h
  | cons d cs ih =>
    rw [evaluateFrom]
    split_ifs with hd
    · exact ⟨d, mem_cons_self, rfl, hd⟩
    all_goals
      obtain ⟨c, hc, hrest⟩ := ih (by simpa [hd] using h)
      exact ⟨c, mem_cons_of_mem d hc, hrest⟩

/-- Without expired candidates the loop keeps the first one of least rank. -/
theorem evaluateFrom_of_not_expired (hcompare : ∀ c d, compare c d = .second ↔ rank d < rank c)
    (h : ∀ c ∈ cs, isExpired c = false) :
    ∃ c ∈ s :: cs, evaluateFrom compare isExpired (some s) cs = some c ∧
      (∀ d ∈ s :: cs, rank c ≤ rank d) ∧ (rank c = rank s → c = s) := by
  induction cs generalizing s with
  | nil => exact ⟨s, by simp, rfl, by simp, fun _ => rfl⟩
  | cons d cs ih =>
    have hrest : ∀ c ∈ cs, isExpired c = false := fun c hc => h c (mem_cons_of_mem d hc)
    rw [evaluateFrom, h d mem_cons_self, if_neg Bool.false_ne_true]
    split_ifs with hd <;> rw [hcompare] at hd
    · obtain ⟨c, hc, heq, hle, -⟩ := ih hrest
      have hlt : rank c < rank s := (hle d mem_cons_self).trans_lt hd
      refine ⟨c, mem_cons_of_mem s hc, heq, forall_mem_cons.mpr ⟨hlt.le, hle⟩, ?_⟩
      exact fun hsame => absurd hsame hlt.ne
    · obtain ⟨c, hc, heq, hle, hkept⟩ := ih hrest
      obtain ⟨hs, hle⟩ := forall_mem_cons.mp hle
      refine ⟨c, ?_, heq, ?_, hkept⟩
      · exact (mem_cons.mp hc).elim (· ▸ mem_cons_self) fun hc => by simp [hc]
      · exact forall_mem_cons.mpr ⟨hs, forall_mem_cons.mpr ⟨hs.trans (not_lt.mp hd), hle⟩⟩

end Evaluate

/-- What is asked of `evaluate`: exactly one candidate, an expired one if there is one, and
otherwise one that no other candidate precedes. -/
def PicksBest {C : Type} (compare : C → C → Priority) (isExpired : C → Bool)
    (candidates : List C) : Prop :=
  ∃ c ∈ candidates, evaluate compare isExpired candidates = some [c] ∧
    ((∃ d ∈ candidates, isExpired d = true) → isExpired c = true) ∧
    ((∀ d ∈ candidates, isExpired d = false) → ∀ d ∈ candidates, compare c d ≠ .second)

/-- With either comparator `evaluate` does so unless the first candidate is the only one
that has expired and another one precedes it. -/
theorem evaluate_picksBest_iff {V : Type} {policy : EvictionPolicy}
    (hpolicy : policy = .lru ∨ policy = .lfu) (now : ℤ) (s : HeapRecord V)
    (cs : List (HeapRecord V)) :
    PicksBest policy.compare (·.isExpiredAt now) (s :: cs) ↔
      ¬ (s.isExpiredAt now = true ∧ (∀ c ∈ cs, c.isExpiredAt now = false) ∧
        ∃ c ∈ cs, policy.compare s c = .second) := by
  obtain ⟨value, hvalue⟩ : ∃ value : HeapRecord V → ℤ,
      policy.compare = compareThenOldest value := by
    rcases hpolicy with rfl | rfl
    · exact ⟨_, rfl⟩
    · exact ⟨_, rfl⟩
  rw [hvalue]
  by_cases hany : ∃ c ∈ cs, c.isExpiredAt now = true
  · obtain ⟨c, hc, heq, hexpired⟩ := evaluateFrom_of_expired (s := s) hany
    refine iff_of_true ⟨c, mem_cons_of_mem s hc, ?_, fun _ => hexpired, fun hall => ?_⟩ ?_
    · rw [evaluate, evaluateFrom, heq, Option.map_some]
    · simp [hall c (mem_cons_of_mem s hc)] at hexpired
    · rintro ⟨-, hnone, -⟩
      simp [hnone c hc] at hexpired
  · have hnone : ∀ c ∈ cs, c.isExpiredAt now = false := by simpa using hany
    obtain ⟨c, hc, heq, hle, hkept⟩ := evaluateFrom_of_not_expired (s := s)
      (compareThenOldest_eq_second_iff value) hnone
    simp only [compareThenOldest_eq_second_iff]
    have heval : evaluate (compareThenOldest value) (·.isExpiredAt now) (s :: cs) = some [c] := by
      rw [evaluate, evaluateFrom, heq, Option.map_some]
    constructor
    · rintro ⟨c', -, heq', hexpired, -⟩ ⟨hs, -, d, hd, hlt⟩
      obtain rfl : c = c' := by simpa [heval] using heq'
      -- the returned candidate has expired, so it is the first one
      rcases mem_cons.mp hc with rfl | hc
      · exact absurd (hle d (mem_cons_of_mem _ hd)) (not_le.mpr hlt)
      · simpa [hnone c hc] using hexpired ⟨s, mem_cons_self, hs⟩
    · intro h
      refine ⟨c, hc, heval, ?_, fun _ d hd hlt => ?_⟩
      · rintro ⟨d, hd, hexpired⟩
        obtain rfl : d = s := (mem_cons.mp hd).resolve_right fun hd => by
          simp [hnone d hd] at hexpired
        have hfirst : c = d := by
          refine hkept ((hle d mem_cons_self).antisymm ?_)
          rcases mem_cons.mp hc with rfl | hc
          · exact le_rfl
          · exact not_lt.mp fun hlt => h ⟨hexpired, hnone, c, hc, hlt⟩
        rwa [hfirst]
      · exact absurd (hle d hd) (not_le.mpr ((compareThenOldest_eq_second_iff value c d).mp hlt))

/-- Of two entries the second has expired. -/
theorem evaluate_picksBest_second :
    PicksBest EvictionPolicy.lru.compare (·.isExpiredAt 10)
      [(⟨(), 1, 20, 5, 0⟩ : HeapRecord Unit), ⟨(), 2, 8, 7, 0⟩] :=
  (evaluate_picksBest_iff (.inl rfl) 10 _ _).mpr (by decide)

/-- The first entry has expired, and the second was used before it: the second is evicted. -/
theorem evaluate_keeps_expired :
    evaluate EvictionPolicy.lru.compare (·.isExpiredAt 10)
        [(⟨(), 1, 8, 7, 0⟩ : HeapRecord Unit), ⟨(), 2, 20, 5, 0⟩] = some [⟨(), 2, 20, 5, 0⟩] ∧
      ¬ PicksBest EvictionPolicy.lru.compare (·.isExpiredAt 10)
        [(⟨(), 1, 8, 7, 0⟩ : HeapRecord Unit), ⟨(), 2, 20, 5, 0⟩] := by
  refine ⟨by decide, ?_⟩
  rintro ⟨c, -, heq, hexpired, -⟩
  cases heq
  exact absurd (hexpired ⟨⟨(), 1, 8, 7, 0⟩, by decide, by decide⟩) (by decide)

end HazelcastClient.NearCache
