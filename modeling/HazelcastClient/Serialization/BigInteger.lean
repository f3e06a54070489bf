import HazelcastClient.Util.BigEndian

/-!
# Arbitrary-precision integers

`pimpl::to_bytes` and `pimpl::from_bytes`, the byte form of the unscaled value
of a `big_decimal`. `boost::multiprecision` is represented by what it is assumed
to do: `export_bits` lists the bytes of the magnitude, the most significant one
first and without leading zeros (a single zero byte for zero), and `import_bits`
reads such a list back.

`to_bytes` negates the magnitude byte by byte and then looks at the first byte
to decide whether a sign byte is missing. For a negative number it tests the
byte for being positive, so that a first byte `0` goes without a sign byte.
-/

namespace HazelcastClient.Serialization

open LittleEndian BigEndian List Int8

/-- The bytes of a vector of `int8_t` as unsigned digits. -/
def digits (v : List Int8) : List UInt8 := v.map toUInt8

/-- The magnitude of `i`; a zero gives one zero byte. -/
def exportBits (i : ℤ) : List Int8 :=
  if i = 0 then [0] else (minimalBytes i.natAbs).map UInt8.toInt8

def importBits (v : List Int8) : ℤ := beNat (digits v)

/-- The loop that adds one, from the last byte to the first. The bytes come in
reverse order; the loop stops at the first byte that does not overflow. -/
def addOne : List Int8 → List Int8
  | [] => []
  | b :: bs => if b + 1 = 0 then 0 :: addOne bs else (b + 1) :: bs

def twosComplement (a : List Int8) : List Int8 :=
  (addOne (a.map fun item => ~~~item).reverse).reverse

/-- `v[0]` is read without a check; on an empty vector the source has no
defined result, and neither caller passes one. -/
def fromBytes (v : List Int8) : ℤ :=
  if v.headD 0 < 0 then -importBits (twosComplement v) else importBits v

def toBytes (i : ℤ) : List Int8 :=
  let v := exportBits i
  if i < 0 then
    let v := twosComplement v
    if 0 < v.headD 0 then -1 :: v else v
  else
    if v.headD 0 < 0 then 0 :: v else v

variable (b : Int8)

theorem toNat_not : (~~~b).toUInt8.toNat = 255 - b.toUInt8.toNat := by
  simp [toUInt8_not, UInt8.toNat_not]

theorem toNat_add_one : (b + 1).toUInt8.toNat = (b.toUInt8.toNat + 1) % 256 := by
  rw [toUInt8_add, UInt8.toNat_add]
  rfl

theorem toNat_eq_zero_iff : b.toUInt8.toNat = 0 ↔ b = 0 := by
  constructor
  · intro h
    have hb : b.toUInt8 = (0 : Int8).toUInt8 := UInt8.toNat_inj.mp h
    exact congrArg UInt8.toInt8 hb
  · rintro rfl
    rfl

theorem neg_iff : b < 0 ↔ 128 ≤ b.toUInt8.toNat := by
  rw [lt_iff_toInt_lt, ← toInt_toBitVec, BitVec.toInt_eq_toNat_cond]
  change (if 2 * b.toUInt8.toNat < 2 ^ 8 then (b.toUInt8.toNat : ℤ)
    else (b.toUInt8.toNat : ℤ) - ((2 ^ 8 : ℕ) : ℤ)) < 0 ↔ _
  have hb : b.toUInt8.toNat < 256 := b.toUInt8.toNat_lt
  split_ifs with h
  · constructor
    · intro hneg
      omega
    · intro hge
      omega
  · constructor
    · intro _
      omega
    · intro _
      omega

theorem pos_iff : 0 < b ↔ b.toUInt8.toNat ≠ 0 ∧ b.toUInt8.toNat < 128 := by
  have hneg := neg_iff b
  have hzero := toNat_eq_zero_iff b
  rw [ne_eq, hzero, ← Nat.not_le, ← hneg]
  constructor
  · intro h
    exact ⟨fun h0 => by rw [h0] at h; exact absurd h (by decide), Int8.not_lt.mpr (Int8.le_of_lt h)⟩
  · rintro ⟨h0, hle⟩
    exact Int8.lt_of_le_of_ne (Int8.not_lt.mp hle) fun h => h0 h.symm

@[simp] theorem digits_length (v : List Int8) : (digits v).length = v.length := by
  simp [digits]

@[simp] theorem digits_cons (b : Int8) (bs : List Int8) :
    digits (b :: bs) = b.toUInt8 :: digits bs := rfl

@[simp] theorem digits_reverse (v : List Int8) : digits v.reverse = (digits v).reverse := by
  simp [digits]

@[simp] theorem addOne_length (bs : List Int8) : (addOne bs).length = bs.length := by
  induction bs with
  | nil => rfl
  | cons b bs ih =>
    unfold addOne
    split_ifs <;> simp [ih]

@[simp] theorem twosComplement_length (a : List Int8) :
    (twosComplement a).length = a.length := by
  simp [twosComplement]

variable (bs : List Int8)

theorem leNat_not :
    leNat (digits (bs.map fun item => ~~~item)) + leNat (digits bs) + 1 = 256 ^ bs.length := by
  induction bs with
  | nil => rfl
  | cons b bs ih =>
    have hb : b.toUInt8.toNat < 256 := b.toUInt8.toNat_lt
    rw [map_cons, digits_cons, digits_cons, leNat_cons, leNat_cons, toNat_not,
      length_cons, pow_succ]
    omega

theorem leNat_addOne : leNat (digits (addOne bs)) = (leNat (digits bs) + 1) % 256 ^ bs.length := by
  induction bs with
  | nil => rfl
  | cons b bs ih =>
    have hb : b.toUInt8.toNat < 256 := b.toUInt8.toNat_lt
    have hlt : leNat (digits bs) < 256 ^ bs.length := by simpa using leNat_lt (digits bs)
    have hover : b + 1 = 0 ↔ b.toUInt8.toNat = 255 := by
      rw [← toNat_eq_zero_iff, toNat_add_one]
      omega
    rw [digits_cons, leNat_cons, length_cons, pow_succ']
    unfold addOne
    split_ifs with h
    · have h255 := hover.mp h
      rw [digits_cons, leNat_cons, ih, h255]
      have hsum : 255 + 256 * leNat (digits bs) + 1 = 256 * (leNat (digits bs) + 1) := by ring
      rw [hsum, Nat.mul_mod_mul_left]
      exact Nat.zero_add _
    · have h255 : b.toUInt8.toNat ≠ 255 := fun h' => h (hover.mpr h')
      rw [digits_cons, leNat_cons, toNat_add_one, Nat.mod_eq_of_lt (by omega),
        Nat.mod_eq_of_lt (by omega)]
      ring

theorem beNat_twosComplement (a : List Int8) :
    beNat (digits (twosComplement a)) =
      (256 ^ a.length - beNat (digits a)) % 256 ^ a.length := by
  have hnot := leNat_not a.reverse
  rw [digits_reverse, length_reverse] at hnot
  rw [beNat, twosComplement, digits_reverse, reverse_reverse, leNat_addOne,
    ← map_reverse, length_map, length_reverse, beNat]
  congr 1
  omega

/-- `from_bytes` reads every vector as a two's complement number. -/
theorem fromBytes_eq : fromBytes (b :: bs) = signedValue (digits (b :: bs)) := by
  rw [fromBytes, headD_cons, digits_cons, signedValue_cons, ← digits_cons, digits_length]
  by_cases hb : b < 0
  · have hge := (neg_iff b).mp hb
    have hpos : 0 < beNat (digits (b :: bs)) := by
      rw [digits_cons, beNat_cons]
      positivity
    have hlt : beNat (digits (b :: bs)) < 256 ^ (bs.length + 1) := by
      simpa using beNat_lt (digits (b :: bs))
    rw [if_pos hb, if_neg (by omega), importBits, beNat_twosComplement, length_cons,
      Nat.mod_eq_of_lt (by omega), Nat.cast_sub hlt.le]
    push_cast
    ring
  · have hlt := mt (neg_iff b).mpr hb
    rw [if_neg hb, if_pos (by omega), importBits]

variable (i : ℤ)

theorem digits_exportBits (h : i ≠ 0) : digits (exportBits i) = minimalBytes i.natAbs := by
  rw [exportBits, if_neg h, digits, map_map]
  simp [Function.comp_def]

theorem exportBits_spec (h : i ≠ 0) :
    ∃ b bs, exportBits i = b :: bs ∧ beNat (digits (b :: bs)) = i.natAbs ∧
      256 ^ bs.length ≤ i.natAbs := by
  have hne : exportBits i ≠ [] := by
    intro hnil
    have hd := digits_exportBits i h
    rw [hnil] at hd
    exact minimalBytes_ne_nil _ (Int.natAbs_ne_zero.mpr h) hd.symm
  obtain ⟨b, bs, hb⟩ := exists_cons_of_ne_nil hne
  have hd : minimalBytes i.natAbs = b.toUInt8 :: digits bs := by
    rw [← digits_exportBits i h, hb, digits_cons]
  have hval : beNat (digits (b :: bs)) = i.natAbs := by
    rw [digits_cons, ← hd, beNat_minimalBytes]
  have hhead := minimalBytes_head _ _ _ hd
  refine ⟨b, bs, hb, hval, ?_⟩
  rw [← hval, digits_cons, beNat_cons, digits_length]
  calc 256 ^ bs.length ≤ b.toUInt8.toNat * 256 ^ bs.length := Nat.le_mul_of_pos_left _ hhead
    _ ≤ _ := Nat.le_add_right _ _

/-- The negative numbers whose negated magnitude starts with a zero byte: the
magnitude starts with the byte `255` and is not a multiple of its place value. -/
def LosesSign (i : ℤ) : Prop :=
  ∃ k : ℕ, 255 * 256 ^ k < -i ∧ -i < 256 ^ (k + 1)

theorem signedValue_toBytes_nonneg (h : 0 ≤ i) : signedValue (digits (toBytes i)) = i := by
  rcases eq_or_ne i 0 with rfl | h0
  · rfl
  · obtain ⟨b, bs, hv, hval, -⟩ := exportBits_spec i h0
    have habs : ((beNat (digits (b :: bs)) : ℕ) : ℤ) = i := by
      rw [hval, Int.natAbs_of_nonneg h]
    rw [toBytes, if_neg (by omega), hv, headD_cons]
    split_ifs with hb
    · have hsign : (0 : Int8).toUInt8.toNat = 0 := rfl
      rw [digits_cons, signedValue_cons, if_pos (by decide), beNat_cons, hsign, Nat.zero_mul,
        Nat.zero_add, habs]
    · have hlt := mt (neg_iff b).mpr hb
      rw [digits_cons, signedValue_cons, ← digits_cons, if_pos (by omega), habs]

/-- The magnitude of a negative number in the terms of its negation `c :: cs`:
the block of `LosesSign` it can be in is that of its own length. -/
theorem losesSign_iff {i : ℤ} {c n k : ℕ} (h : i < 0) (hlow : 256 ^ n ≤ i.natAbs)
    (hneg : c * 256 ^ n + k = 256 ^ (n + 1) - i.natAbs) (hk : k < 256 ^ n)
    (hhigh : i.natAbs < 256 ^ (n + 1)) : LosesSign i ↔ c = 0 := by
  constructor
  · rintro ⟨m, hm1, hm2⟩
    have hm1' : 255 * 256 ^ m < i.natAbs := by zify; rw [abs_of_neg h]; exact hm1
    have hm2' : i.natAbs < 256 ^ (m + 1) := by zify; rw [abs_of_neg h]; exact hm2
    have hm : m = n := by
      have h1 : 256 ^ m < 256 ^ (n + 1) := by omega
      have h2 : 256 ^ n < 256 ^ (m + 1) := by omega
      rw [Nat.pow_lt_pow_iff_right (by decide)] at h1 h2
      omega
    subst hm
    by_contra hne
    have hle : 256 ^ m ≤ c * 256 ^ m := Nat.le_mul_of_pos_left _ (Nat.pos_of_ne_zero hne)
    rw [pow_succ] at hneg hhigh
    omega
  · intro hzero
    have hnat : 255 * 256 ^ n < i.natAbs := by
      rw [hzero] at hneg
      rw [pow_succ] at hneg hhigh
      omega
    zify at hnat hhigh
    rw [abs_of_neg h] at hnat hhigh
    exact ⟨n, hnat, hhigh⟩

theorem toBytes_neg {i : ℤ} {c : Int8} {cs : List Int8} (h : i < 0)
    (hc : twosComplement (exportBits i) = c :: cs) :
    toBytes i = if 0 < c then -1 :: c :: cs else c :: cs := by
  simp only [toBytes, if_pos h, hc, headD_cons]

/-- For a negative number `to_bytes` is right exactly when the first byte of the
negated magnitude is not zero. -/
theorem signedValue_toBytes_neg (h : i < 0) :
    signedValue (digits (toBytes i)) = i ↔ ¬ LosesSign i := by
  obtain ⟨b, bs, hv, hval, hlow⟩ := exportBits_spec i (by omega)
  have hhigh : i.natAbs < 256 ^ (bs.length + 1) := by
    rw [← hval]
    simpa using beNat_lt (digits (b :: bs))
  obtain ⟨c, cs, hc⟩ : ∃ c cs, twosComplement (b :: bs) = c :: cs :=
    exists_cons_of_ne_nil fun hnil => by
      simpa using congrArg List.length hnil
  have hlen : cs.length = bs.length := by
    simpa [hc] using twosComplement_length (b :: bs)
  have hneg : beNat (digits (c :: cs)) = 256 ^ (bs.length + 1) - i.natAbs := by
    rw [← hc, beNat_twosComplement, hval, length_cons, Nat.mod_eq_of_lt (by omega)]
  have hloses : LosesSign i ↔ c.toUInt8.toNat = 0 := by
    refine losesSign_iff (k := beNat (digits cs)) h hlow ?_ ?_ hhigh
    · rw [← hneg, digits_cons, beNat_cons, digits_length, hlen]
    · simpa [hlen] using beNat_lt (digits cs)
  have hval' : ((beNat (digits (c :: cs)) : ℕ) : ℤ) = 256 ^ (bs.length + 1) + i := by
    have hmag : (i.natAbs : ℤ) = -i := by omega
    rw [hneg, Nat.cast_sub hhigh.le, hmag]
    push_cast
    ring
  rw [hloses, toBytes_neg h (hv ▸ hc)]
  split_ifs with hpos
  · obtain ⟨hne, -⟩ := (pos_iff c).mp hpos
    refine ⟨fun _ => hne, fun _ => ?_⟩
    have h255 : (-1 : Int8).toUInt8.toNat = 255 := rfl
    rw [digits_cons, signedValue_cons, if_neg (by decide), beNat_cons, h255, digits_length,
      length_cons, hlen]
    push_cast
    rw [hval']
    ring
  · rw [digits_cons, signedValue_cons, ← digits_cons, digits_length, hlen, hval']
    by_cases hzero : c.toUInt8.toNat = 0
    · have hnonneg : (0 : ℤ) ≤ beNat (digits (c :: cs)) := by positivity
      rw [if_pos (by omega)]
      exact ⟨fun heq => by omega, fun hne => absurd hzero hne⟩
    · have hbig : ¬ c.toUInt8.toNat < 128 := fun hlt => hpos ((pos_iff c).mpr ⟨hzero, hlt⟩)
      rw [if_neg hbig]
      exact ⟨fun _ => hzero, fun _ => by ring⟩

theorem toBytes_ne_nil : toBytes i ≠ [] := by
  have hlen : 0 < (exportBits i).length := by
    rcases eq_or_ne i 0 with rfl | h
    · decide
    · obtain ⟨b, bs, hv, -⟩ := exportBits_spec i h
      simp [hv]
  have hle : (exportBits i).length ≤ (toBytes i).length := by
    simp only [toBytes]
    split_ifs <;> simp
  exact length_pos_iff.mp (hlen.trans_le hle)

theorem signedValue_toBytes_iff : signedValue (digits (toBytes i)) = i ↔ ¬ LosesSign i := by
  rcases lt_or_ge i 0 with h | h
  · exact signedValue_toBytes_neg i h
  · refine iff_of_true (signedValue_toBytes_nonneg i h) ?_
    rintro ⟨k, hk, -⟩
    have hpow : (0 : ℤ) ≤ 255 * 256 ^ k := by positivity
    omega

theorem fromBytes_toBytes : fromBytes (toBytes i) = signedValue (digits (toBytes i)) := by
  obtain ⟨b, bs, hb⟩ := exists_cons_of_ne_nil (toBytes_ne_nil i)
  rw [hb, fromBytes_eq]

/-- A serialized integer is a two's complement number that reads back as itself,
exactly for the numbers that keep their sign byte. -/
theorem toBytes_represents_iff (i : ℤ) :
    (fromBytes (toBytes i) = i ∧ signedValue (digits (toBytes i)) = i ∧
      ((toBytes i).headD 0 < 0 ↔ i < 0)) ↔ ¬ LosesSign i := by
  constructor
  · rintro ⟨-, h, -⟩
    exact (signedValue_toBytes_iff i).mp h
  · intro h
    have heq := (signedValue_toBytes_iff i).mpr h
    refine ⟨(fromBytes_toBytes i).trans heq, heq, ?_⟩
    obtain ⟨b, bs, hb⟩ := exists_cons_of_ne_nil (toBytes_ne_nil i)
    rw [hb, headD_cons, neg_iff, ← signedValue_neg_iff _ (digits bs), ← digits_cons, ← hb, heq]

/-- The magnitude of `-65535` is `255 255`; its negation `0 1` gets no sign byte
and reads back as `1`. -/
theorem toBytes_loses_sign : toBytes (-65535) = [0, 1] ∧ fromBytes (toBytes (-65535)) = 1 := by
  decide

end HazelcastClient.Serialization
