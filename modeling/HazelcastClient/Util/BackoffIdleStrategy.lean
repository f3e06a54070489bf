import Mathlib.Algebra.Order.Ring.Int
import Mathlib.Data.Nat.Size

/-!
# The back-off of an idle thread

`BackoffIdleStrategy` parks a thread for twice as long at each idle count, from the minimal
to the maximal period. The largest shift comes from the leading zeros of the two periods,
which `number_of_leading_zeros` counts by a binary search.
-/

namespace HazelcastClient.Util

/-- How a computation ends that has no result: a signed overflow is undefined. -/
inductive Fault where
  | overflow
  | illegalArgument (message : String)

/-- The result of an operation on `int64_t`. -/
def int64 (x : ℤ) : Except Fault ℤ :=
  if -2 ^ 63 ≤ x ∧ x < 2 ^ 63 then .ok x else .error .overflow

/-- A step of the search, on `n` and `x`. -/
def narrow (bits width : ℕ) (p : ℤ × ℤ) : Except Fault (ℤ × ℤ) :=
  if p.2 >>> bits = 0 then (int64 (p.2 <<< width)).map (p.1 + width, ·) else .ok p

/-- The search for the leading one in 32 digits. -/
def search (p : ℤ × ℤ) : Except Fault ℤ := do
  let p ← narrow 16 16 p
  let p ← narrow 24 8 p
  let p ← narrow 28 4 p
  let p ← narrow 30 2 p
  return p.1 - p.2 >>> (31 : ℕ)

def numberOfLeadingZeros (i : ℤ) : Except Fault ℤ :=
  if i = 0 then .ok 64
  else if i >>> (32 : ℕ) = 0 then search (1 + 32, i)
  else search (1, i >>> (32 : ℕ))

def checkNotNegative (value : ℤ) (message : String) : Except Fault Unit :=
  if value < 0 then .error (.illegalArgument message) else .ok ()

structure BackoffIdleStrategy where
  parkThreshold : ℤ
  minParkPeriodNs : ℤ
  maxParkPeriodNs : ℤ
  maxShift : ℤ

namespace BackoffIdleStrategy

/-- The constructor. -/
def new (maxSpins maxYields minParkPeriodNs maxParkPeriodNs : ℤ) :
    Except Fault BackoffIdleStrategy := do
  checkNotNegative maxSpins "maxSpins must be positive or zero"
  checkNotNegative maxYields "maxYields must be positive or zero"
  checkNotNegative minParkPeriodNs "minParkPeriodNs must be positive or zero"
  checkNotNegative (← int64 (maxParkPeriodNs - minParkPeriodNs))
    "maxParkPeriodNs must be greater than or equal to minParkPeriodNs"
  return {
    parkThreshold := ← int64 (maxSpins + maxYields)
    minParkPeriodNs := minParkPeriodNs
    maxParkPeriodNs := maxParkPeriodNs
    maxShift :=
      (← numberOfLeadingZeros minParkPeriodNs) - (← numberOfLeadingZeros maxParkPeriodNs) }

def parkTime (s : BackoffIdleStrategy) (n : ℤ) : Except Fault ℤ :=
  (int64 (n - s.parkThreshold)).bind fun proposedShift =>
    let allowedShift := min s.maxShift proposedShift
    if s.maxShift < proposedShift then .ok s.maxParkPeriodNs
    else if proposedShift < s.maxShift then int64 (s.minParkPeriodNs <<< allowedShift.toNat)
    else (int64 (s.minParkPeriodNs <<< allowedShift.toNat)).map (min · s.maxParkPeriodNs)

end BackoffIdleStrategy

theorem int64_natCast {x : ℕ} (h : x < 2 ^ 63) : int64 x = .ok (x : ℤ) :=
  if_pos ⟨by omega, by omega⟩

theorem lt_of_size_lt {m n : ℕ} (h : m.size < n.size) : m < n :=
  Nat.lt_of_not_le fun hle => absurd (Nat.size_le_size hle) (Nat.not_le_of_lt h)

theorem size_shiftRight_le_iff (x bits k : ℕ) : (x >>> bits).size ≤ k ↔ x.size ≤ k + bits := by
  rw [Nat.size_le, Nat.size_le, Nat.shiftRight_eq_div_pow, Nat.pow_add,
    Nat.div_lt_iff_lt_mul (Nat.two_pow_pos bits)]

theorem shiftRight_eq_zero_iff {x bits : ℕ} : (x : ℤ) >>> bits = 0 ↔ x.size ≤ bits := by
  rw [← Nat.zero_add bits, ← size_shiftRight_le_iff, Nat.le_zero, Nat.size_eq_zero, Nat.zero_add]
  exact Int.ofNat_eq_zero

/-- A step adds to `n` what the number of digits of `x` grows by. -/
theorem narrow_eq {bits width x : ℕ} (c : ℤ) (hwidth : bits + width = 32) (hle : width ≤ bits)
    (hlow : bits < x.size + width) (hhigh : x.size ≤ 32) :
    ∃ x' : ℕ, narrow bits width (c + x.size, x) = .ok (c + x'.size, x') ∧
      bits < x'.size ∧ x'.size ≤ 32 := by
  by_cases h : x.size ≤ bits
  · have hx : x ≠ 0 := Nat.pos_iff_ne_zero.mp (Nat.size_pos.mp (by omega))
    have hsize : (x <<< width).size = x.size + width := Nat.size_shiftLeft hx width
    have hlt : x <<< width < 2 ^ 32 := Nat.size_le.mp (by omega)
    have hfits : int64 ((x : ℤ) <<< width) = .ok ((x <<< width : ℕ) : ℤ) :=
      int64_natCast (Nat.lt_trans hlt (by decide))
    refine ⟨x <<< width, ?_, by omega, by omega⟩
    rw [narrow, if_pos (shiftRight_eq_zero_iff.mpr h), hfits, hsize, Int.natCast_add,
      ← Int.add_assoc, Except.map]
  · have hne : (x : ℤ) >>> bits ≠ 0 := shiftRight_eq_zero_iff.not.mpr h
    exact ⟨x, if_neg hne, by omega, hhigh⟩

theorem search_eq {x : ℕ} (c : ℤ) (hlow : 0 < x.size) (hhigh : x.size ≤ 32) :
    search (c + x.size, x) = .ok (c + 31) := by
  obtain ⟨x₁, h₁, hlow₁, hhigh₁⟩ := narrow_eq c (rfl : 16 + 16 = 32) (by decide) (by omega) hhigh
  obtain ⟨x₂, h₂, hlow₂, hhigh₂⟩ := narrow_eq c (rfl : 24 + 8 = 32) (by decide) (by omega) hhigh₁
  obtain ⟨x₃, h₃, hlow₃, hhigh₃⟩ := narrow_eq c (rfl : 28 + 4 = 32) (by decide) (by omega) hhigh₂
  obtain ⟨x₄, h₄, hlow₄, hhigh₄⟩ := narrow_eq c (rfl : 30 + 2 = 32) (by decide) (by omega) hhigh₃
  have hlast : (x₄ : ℤ) >>> (31 : ℕ) = x₄.size - 31 := by
    have hdigit := Nat.size_le (m := x₄) (n := 31)
    have hlt : x₄ < 2 ^ 32 := Nat.size_le.mp hhigh₄
    rw [Int.shiftRight_eq_div_pow]
    omega
  simp only [search, h₁, h₂, h₃, h₄, hlast, bind, Except.bind, pure, Except.pure]
  congr 1
  omega

theorem numberOfLeadingZeros_eq {i : ℕ} (h : i < 2 ^ 63) :
    numberOfLeadingZeros i = .ok (64 - (i.size : ℤ)) := by
  have hsize : i.size ≤ 63 := Nat.size_le.mpr h
  unfold numberOfLeadingZeros
  split_ifs with hzero hhalf
  · simp [Int.natCast_eq_zero.mp hzero]
  · rw [shiftRight_eq_zero_iff] at hhalf
    have hsearch := search_eq (33 - i.size) (Nat.size_pos.mpr (by omega)) hhalf
    rw [Int.sub_add_cancel] at hsearch
    exact hsearch.trans (congrArg Except.ok (by omega))
  · rw [shiftRight_eq_zero_iff] at hhalf
    have hupper : (i >>> 32).size + 32 = i.size := by
      have hle := (size_shiftRight_le_iff i 32 _).mp (Nat.le_refl _)
      have hge := (size_shiftRight_le_iff i 32 (i.size - 32)).mpr (by omega)
      omega
    have hsearch := search_eq (x := i >>> 32) (1 - (i >>> 32).size) (by omega) (by omega)
    rw [Int.sub_add_cancel] at hsearch
    exact hsearch.trans (congrArg Except.ok (by omega))

namespace BackoffIdleStrategy

variable {maxSpins maxYields minPark maxPark : ℕ}

theorem new_eq (hsum : maxSpins + maxYields < 2 ^ 63) (hle : minPark ≤ maxPark)
    (hmax : maxPark < 2 ^ 63) : new maxSpins maxYields minPark maxPark =
      .ok ⟨(maxSpins + maxYields : ℕ), minPark, maxPark, maxPark.size - minPark.size⟩ := by
  have hmin : minPark < 2 ^ 63 := Nat.lt_of_le_of_lt hle hmax
  have hrange : int64 ((maxPark : ℤ) - minPark) = .ok ((maxPark - minPark : ℕ) : ℤ) := by
    rw [← Int.ofNat_sub hle, int64_natCast (by omega)]
  have hthreshold := int64_natCast hsum
  have hcheck (value : ℕ) (message : String) : checkNotNegative value message = .ok () :=
    if_neg (by omega)
  have hshift : (64 - minPark.size : ℤ) - (64 - maxPark.size) = maxPark.size - minPark.size := by
    omega
  simp only [new, hcheck, hrange, ← Int.natCast_add, hthreshold, numberOfLeadingZeros_eq hmin,
    numberOfLeadingZeros_eq hmax]
  simp only [hcheck, hshift, bind, Except.bind, pure, Except.pure]

/-- The period doubles until it reaches the maximum. -/
theorem parkTime_eq (threshold : ℕ) {k : ℕ} (hmin : 0 < minPark) (hle : minPark ≤ maxPark)
    (hmax : maxPark < 2 ^ 63) (hk : k < 2 ^ 63) :
    parkTime ⟨threshold, minPark, maxPark, maxPark.size - minPark.size⟩ (threshold + k : ℕ) =
      .ok ((min (minPark <<< k) maxPark : ℕ) : ℤ) := by
  have hsizes : minPark.size ≤ maxPark.size := Nat.size_le_size hle
  have hbound : maxPark.size ≤ 63 := Nat.size_le.mpr hmax
  have hsize : (minPark <<< k).size = minPark.size + k := Nat.size_shiftLeft (Nat.ne_of_gt hmin) k
  have hfits (h : minPark.size + k ≤ maxPark.size) :
      int64 ((minPark : ℤ) <<< k) = .ok ((minPark <<< k : ℕ) : ℤ) :=
    int64_natCast (Nat.size_le.mp (by omega))
  have hproposed : ((threshold + k : ℕ) : ℤ) - threshold = k := by omega
  rw [parkTime, hproposed, int64_natCast hk]
  simp only [Except.bind]
  have hallowed (h : minPark.size + k ≤ maxPark.size) :
      (min ((maxPark.size : ℤ) - minPark.size) k).toNat = k := by omega
  split_ifs with hmore hless
  · rw [Nat.min_eq_right (Nat.le_of_lt (lt_of_size_lt (by omega)))]
  · rw [hallowed (by omega), hfits (by omega),
      Nat.min_eq_left (Nat.le_of_lt (lt_of_size_lt (by omega)))]
  · rw [hallowed (by omega), hfits (by omega), Except.map]
    exact congrArg Except.ok (by omega)

/-- For every configuration and all idle counts from the threshold on: nothing overflows, the
park times are between the two periods and do not decrease. -/
theorem parkTime_bounded_monotone (maxSpins maxYields minPark maxPark n n' : ℕ)
    (hmin : 0 < minPark) (hle : minPark ≤ maxPark) (hmax : maxPark < 2 ^ 63)
    (hn : maxSpins + maxYields ≤ n) (hnn' : n ≤ n') (hn' : n' < 2 ^ 63) :
    (∀ i : ℕ, i < 2 ^ 63 → numberOfLeadingZeros i = .ok (64 - (i.size : ℤ))) ∧
      ∃ s time time', new maxSpins maxYields minPark maxPark = .ok s ∧
        s.parkTime n = .ok time ∧ s.parkTime n' = .ok time' ∧
        minPark ≤ time ∧ time ≤ time' ∧ time' ≤ maxPark := by
  obtain ⟨k, rfl⟩ := Nat.exists_eq_add_of_le hn
  obtain ⟨d, rfl⟩ := Nat.exists_eq_add_of_le hnn'
  have htime := parkTime_eq (maxSpins + maxYields) (k := k) hmin hle hmax (by omega)
  have htime' := parkTime_eq (maxSpins + maxYields) (k := k + d) hmin hle hmax (by omega)
  rw [← Nat.add_assoc] at htime'
  refine ⟨fun i => numberOfLeadingZeros_eq, _, _, _, new_eq (by omega) hle hmax, htime, htime', ?_⟩
  have hfirst : minPark ≤ minPark <<< k := Nat.le_shiftLeft
  have hsecond : minPark <<< k ≤ minPark <<< (k + d) := by
    rw [Nat.shiftLeft_add]
    exact Nat.le_shiftLeft
  omega

theorem parkTime_bounded_monotone_second : ∃ s time time',
    new (100 : ℕ) (10 : ℕ) (1000 : ℕ) (500000 : ℕ) = .ok s ∧
      s.parkTime (111 : ℕ) = .ok time ∧ s.parkTime (112 : ℕ) = .ok time' ∧
      ((1000 : ℕ) : ℤ) ≤ time ∧ time ≤ time' ∧ time' ≤ (500000 : ℕ) :=
  (parkTime_bounded_monotone 100 10 1000 500000 111 112 (by decide) (by decide) (by decide)
    (by decide) (by decide) (by decide)).2

end BackoffIdleStrategy

end HazelcastClient.Util
