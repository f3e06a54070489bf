import HazelcastClient.Serialization.Compact.Law

/-!
# Vectors on a stream

Booleans of a vector are packed into bytes; numbers follow each other. A vector of
numbers without items is read as an absent one.
-/

namespace HazelcastClient.Serialization.Compact

open ByteParser RandomAccess List

section Bits

theorem bitOf_eq (b : UInt8) (k : ℕ) : bitOf b k = b.toBitVec.getLsbD k := by
  have hbit : ∀ x : BitVec 32, ((x &&& 1#32) != 0#32) = x.getLsbD 0 := by
    intro x
    rw [BitVec.and_one_eq_setWidth_ofBool_getLsbD]
    cases x.getLsbD 0 <;> rfl
  rw [bitOf, hbit, BitVec.getLsbD_ushiftRight, Nat.add_zero, BitVec.getLsbD_setWidth]
  by_cases hk : k < 32
  · rw [decide_eq_true hk, Bool.true_and]
  · rw [BitVec.getLsbD_of_ge _ _ (by omega), Bool.and_false]

theorem bitOf_setBitOf (b : UInt8) {k j : ℕ} (hk : k < 8) (hj : j < 8) (v : Bool) :
    bitOf (setBitOf b k v) j = if j = k then v else bitOf b j := by
  have hone : (1#32 <<< k).getLsbD j = decide (j = k) := by
    rw [BitVec.getLsbD_shiftLeft, BitVec.getLsbD_one]
    by_cases heq : j = k
    · subst heq
      simp
      omega
    · by_cases hlt : j < k
      · simp [hlt, heq]
      · have hsub : j - k ≠ 0 := by omega
        simp [heq, hsub]
  have hwide : (b.toBitVec.setWidth 32).getLsbD j = b.toBitVec.getLsbD j := by
    rw [BitVec.getLsbD_setWidth, decide_eq_true (by omega : j < 32), Bool.true_and]
  rw [bitOf_eq, bitOf_eq, setBitOf]
  cases v with
  | true =>
    simp only [if_true, BitVec.getLsbD_setWidth, BitVec.getLsbD_or, hone, hwide, hj]
    by_cases heq : j = k <;> simp [heq]
  | false =>
    simp only [Bool.false_eq_true, if_false, BitVec.getLsbD_setWidth, BitVec.getLsbD_and,
      BitVec.getLsbD_not, hone, hwide, hj]
    by_cases heq : j = k
    · simp [heq]
    · simp [heq, show j < 32 by omega]

/-- The bytes of packed booleans: the byte `b` has its bits below `index`. -/
def packFrom : UInt8 → ℕ → List Bool → List UInt8
  | b, _, [] => [b]
  | b, index, v :: vs =>
    if index = 8 then b :: packFrom (setBitOf 0 0 v) 1 vs
    else packFrom (setBitOf b index v) (index + 1) vs

theorem writeBooleanBitAt_last (out : Output) (b : UInt8) {bit : ℕ} (hbit : bit < 32) (v : Bool) :
    writeBooleanBitAt out.length bit v (out ++ [b]) = .ok (out ++ [setBitOf b bit v]) := by
  have havailable : checkAvailable out.length 1 (out ++ [b]) = .ok () := by
    rw [checkAvailable, length_append]
    have hone : toSize (((out.length + [b].length : ℕ) : ℤ) - (out.length : ℕ)) = 1 := by
      rw [Nat.cast_add, add_sub_cancel_left]
      rfl
    rw [hone]
    rfl
  have hget : (out ++ [b]).getD out.length 0 = b := by
    simp
  rw [writeBooleanBitAt, havailable, if_pos hbit, hget]
  exact congrArg Except.ok (overwrite_append_right out [b] [setBitOf b bit v] 0)

variable (vs : List Bool) {index : ℕ}

theorem writeBits_eq (out : Output) (b : UInt8) (hindex : index ≤ 8) :
    writeBits out.length index vs (out ++ [b]) = .ok (out ++ packFrom b index vs) := by
  induction vs generalizing out b index with
  | nil => rfl
  | cons v vs ih =>
    rw [writeBits, packFrom]
    by_cases h8 : index = 8
    · have hlast := writeBooleanBitAt_last (out ++ [b]) 0 (show 0 < 32 by decide) v
      rw [length_append, length_singleton] at hlast
      have hrest := ih (out ++ [b]) (setBitOf 0 0 v) (show 1 ≤ 8 by decide)
      rw [length_append, length_singleton] at hrest
      rw [if_pos h8, if_pos h8, hlast, ok_bind, hrest, append_assoc]
      rfl
    · rw [if_neg h8, if_neg h8, writeBooleanBitAt_last out b (by omega) v, ok_bind]
      exact ih out (setBitOf b index v) (by omega)

theorem packFrom_length (b : UInt8) (hindex : index ≤ 8) (hpos : 0 < index + vs.length) :
    (packFrom b index vs).length = (index + vs.length + 7) / 8 := by
  induction vs generalizing b index with
  | nil =>
    rw [length_nil] at hpos ⊢
    rw [packFrom, length_singleton]
    omega
  | cons v vs ih =>
    rw [packFrom, length_cons]
    by_cases h8 : index = 8
    · rw [if_pos h8, length_cons, ih _ (by omega) (by omega)]
      omega
    · rw [if_neg h8, ih _ (by omega) (by omega)]
      omega

/-- Packed booleans start with a byte that keeps its lower bits, and are read from it and
the bytes after it. -/
theorem packFrom_reads (b : UInt8) (hindex : index ≤ 8) :
    ∃ first rest, packFrom b index vs = first :: rest ∧
      (∀ j < index, bitOf first j = bitOf b j) ∧
      Reads intMax (readBits vs.length index first) rest vs := by
  induction vs generalizing b index with
  | nil => exact ⟨b, [], rfl, fun _ _ => rfl, Reads.pure []⟩
  | cons v vs ih =>
    rw [packFrom, length_cons]
    by_cases h8 : index = 8
    · obtain ⟨first, rest, hpack, hlow, hreads⟩ := ih (setBitOf 0 0 v) (show 1 ≤ 8 by decide)
      have hbit : bitOf first 0 = v := by
        rw [hlow 0 (by decide), bitOf_setBitOf _ (by decide) (by decide), if_pos rfl]
      rw [if_pos h8, hpack]
      refine ⟨b, first :: rest, rfl, fun _ _ => rfl, ?_⟩
      rw [readBits, if_pos h8]
      exact (reads_readByte first).bind
        (hreads.bind_pure (fun values => bitOf first 0 :: values) (by rw [hbit]))
    · obtain ⟨first, rest, hpack, hlow, hreads⟩ :=
        ih (setBitOf b index v) (show index + 1 ≤ 8 by omega)
      have hbit : bitOf first index = v := by
        rw [hlow index (by omega), bitOf_setBitOf _ (by omega) (by omega), if_pos rfl]
      rw [if_neg h8, hpack]
      refine ⟨first, rest, rfl, ?_, ?_⟩
      · intro j hj
        rw [hlow j (by omega), bitOf_setBitOf _ (by omega) (by omega), if_neg (by omega)]
      · rw [readBits, if_neg h8]
        exact hreads.bind_pure (fun values => bitOf first index :: values) (by rw [hbit])

end Bits

def vectorSize : (p : Primitive) → List p.Val → ℕ
  | .boolean, vs => 4 + (vs.length + 7) / 8
  | .numeric n, vs => 4 + n.size * vs.length

/-- A vector comes back unless it has no numbers, or more booleans than an `int` can
count. -/
def VectorSurvives : (p : Primitive) → List p.Val → Prop
  | .boolean, vs => vs.length ≤ intMax
  | .numeric _, vs => vs ≠ []

section Vectors

variable {order : ByteOrder} (n : Numeric) (vs : List (BitVec (8 * n.size))) (p : Primitive)

def booleanBytes (order : ByteOrder) (vs : List Bool) : List UInt8 :=
  storeInt32 order (.ofNat vs.length) ++ if vs = [] then [] else packFrom 0 0 vs

def numberBytes (order : ByteOrder) (n : Numeric) (vs : List (BitVec (8 * n.size))) : List UInt8 :=
  storeInt32 order (.ofNat vs.length) ++ vs.flatMap (primitiveBytes order (.numeric n))

theorem booleanBytes_length (vs : List Bool) :
    (booleanBytes order vs).length = 4 + (vs.length + 7) / 8 := by
  rw [booleanBytes, length_append, storeInt32_length]
  by_cases h : vs = []
  · simp [h]
  · have hpos := length_pos_iff.mpr h
    rw [if_neg h, packFrom_length vs 0 (by decide) (by omega), Nat.zero_add]

theorem flatMap_primitiveBytes_length (vs : List p.Val) :
    (vs.flatMap (primitiveBytes order p)).length = p.size * vs.length := by
  rw [flatMap_length (primitiveBytes_length p), Nat.mul_comm]

theorem numberBytes_length : (numberBytes order n vs).length = 4 + n.size * vs.length := by
  have hflat : (vs.flatMap (primitiveBytes order (.numeric n))).length = n.size * vs.length :=
    flatMap_primitiveBytes_length (.numeric n) vs
  rw [numberBytes, length_append, storeInt32_length, hflat]

theorem writeBooleans_eq (vs : List Bool) (h : vs.length ≤ intMax) (out : Output) :
    writeBooleans order vs out = .ok (out ++ booleanBytes order vs) := by
  rw [writeBooleans, toInt_of_le h, ok_bind, booleanBytes, ← append_assoc]
  by_cases hnil : vs = []
  · rw [if_pos (by rw [hnil]; rfl), if_pos hnil, append_nil]
  · have hpos := length_pos_iff.mpr hnil
    rw [if_neg (by omega), if_neg hnil]
    exact writeBits_eq vs _ 0 (by decide)

theorem eq_zero_iff_of_toInt {α : Type} {vs : List α} {len : Int32}
    (hlen : len.toInt = vs.length) : len = 0 ↔ vs = [] := by
  rw [← Int32.toInt_inj, hlen, ← length_eq_zero_iff]
  exact Int.natCast_eq_zero

theorem reads_readBooleans (vs : List Bool) (h : vs.length ≤ intMax) :
    Reads intMax (readBooleans order) (booleanBytes order vs) vs := by
  refine reads_length h rfl fun len hlen => ?_
  have hzero := eq_zero_iff_of_toInt hlen
  by_cases hnil : vs = []
  · rw [if_pos (hzero.mpr hnil), if_pos hnil, hnil]
    exact Reads.pure []
  · obtain ⟨first, rest, hpack, -, hreads⟩ := packFrom_reads vs 0 (Nat.zero_le 8)
    rw [if_neg (mt hzero.mp hnil), if_neg (not_neg_of_toInt hlen), if_neg hnil, hlen,
      Int.toNat_natCast, hpack]
    exact (reads_readByte first).bind hreads

theorem le_size_mul (k : ℕ) : k ≤ n.size * k := by
  cases n <;> simp only [Numeric.size] <;> omega

theorem appends_writeNumbers :
    Appends (writeVector order (.numeric n) vs) (numberBytes order n vs) := by
  intro out
  by_cases h : vs.length ≤ intMax
  · left
    rw [writeVector, toInt_of_le h]
    exact congrArg Except.ok (append_assoc _ _ _)
  · right
    have hle := le_size_mul n vs.length
    rw [writeVector, toInt_of_lt (by omega), numberBytes_length]
    exact ⟨by omega, _, rfl⟩

theorem reads_readNumbers (h : vs.length ≤ intMax) :
    Reads intMax (readNumbers order n) (numberBytes order n vs)
      (if vs = [] then none else some vs) := by
  refine reads_length h rfl fun len hlen => ?_
  have hnull : len ≠ -1 := by
    rintro rfl
    exact not_neg_of_toInt hlen (by decide)
  rw [if_neg hnull]
  have hzero := eq_zero_iff_of_toInt hlen
  by_cases hnil : vs = []
  · rw [if_pos (hzero.mpr hnil), if_pos hnil, hnil]
    exact Reads.pure none
  · rw [if_neg (mt hzero.mp hnil), if_neg (not_neg_of_toInt hlen), if_neg hnil, hlen,
      Int.toNat_natCast]
    have htimes : Reads intMax ((readPrimitive order (.numeric n)).times vs.length)
        (vs.flatMap (primitiveBytes order (.numeric n))) vs :=
      Reads.times fun v _ => reads_readPrimitive (.numeric n) v
    exact htimes.bind_pure some rfl

theorem gets_vector {p : Primitive} {bytes : List UInt8} {u : Option (List p.Val)}
    (h : Reads intMax (readVector order p) bytes u) : Gets (Reader.vector order p) bytes u := by
  intro data pos hat hlimit
  rw [Reader.vector, h data pos hat hlimit]
  rfl

/-- What happens to a vector of primitives. -/
theorem vectorLaw (vs : List p.Val) :
    FieldLaw (writeVector order p vs) (Reader.vector order p) (some vs) (vectorSize p vs)
      (VectorSurvives p vs) := by
  cases p with
  | boolean =>
    by_cases h : List.length vs ≤ intMax
    · refine .written (booleanBytes order vs) (booleanBytes_length vs) ?_ (fun _ => ?_)
        fun hlost => absurd h hlost
      · exact fun out => .inl (writeBooleans_eq vs h out)
      · exact gets_vector ((reads_readBooleans vs h).bind_pure some rfl)
    · refine .unwritable (fun out => ⟨.undefined, ?_⟩) h
      rw [writeVector, writeBooleans, toInt_of_lt (Nat.not_le.mp h)]
      rfl
  | numeric n =>
    have hgets : Gets (Reader.vector order (.numeric n)) (numberBytes order n vs)
        (if vs = [] then none else some vs) := by
      by_cases h : List.length vs ≤ intMax
      · exact gets_vector (reads_readNumbers n vs h)
      · refine gets_vector (reads_of_large ?_)
        have hle := le_size_mul n (List.length vs)
        rw [numberBytes_length]
        omega
    refine .written (numberBytes order n vs) (numberBytes_length n vs)
      (appends_writeNumbers n vs) (fun hne => ?_) fun hnil => ?_
    · rwa [if_neg hne] at hgets
    · rw [if_pos (not_not.mp hnil)] at hgets
      intro data pos hat hlimit heq
      rw [hgets data pos hat hlimit] at heq
      cases heq

end Vectors

end HazelcastClient.Serialization.Compact
