import HazelcastClient.Serialization.Compact.SchemaLayout

/-!
# Fingerprints of compact schemas

The table of `rabin_finger_print` does for a byte what eight steps of the bitwise
fingerprint do: a step is linear, and steps over a word whose low bits are clear only
shift it. The fields are sorted by their names before anything depends on their order, so
schemas of the same fields have the same id and the same layout.
-/

namespace HazelcastClient.Serialization.Compact

open List Schema

open UInt64 (toNat_and toNat_inj toNat_shiftRight xor_assoc xor_zero)

section Rabin

/-- A step of the bitwise fingerprint. -/
def shiftBit (fp : UInt64) : UInt64 :=
  if fp &&& 1 = 1 then (fp >>> 1) ^^^ fingerprintInit else fp >>> 1

def rabinByte (fp : UInt64) (b : UInt8) : UInt64 := shiftBit^[8] (fp ^^^ b.toUInt64)

variable (fp x y : UInt64)

theorem and_one_eq_one_iff : fp &&& 1 = 1 ↔ fp.toNat % 2 = 1 := by
  rw [← toNat_inj, toNat_and]
  simp

theorem mask_eq : (fp >>> 1) ^^^ (fingerprintInit &&& (0 - (fp &&& 1))) = shiftBit fp := by
  unfold shiftBit
  split_ifs with h
  · rw [h]
    rfl
  · have hzero : fp &&& 1 = 0 := by
      rw [and_one_eq_one_iff] at h
      rw [← toNat_inj, toNat_and]
      simpa using h
    simp [hzero]

theorem fingerprintEntry_eq : fingerprintEntry x = shiftBit^[8] x := by
  simp only [fingerprintEntry, mask_eq]
  rfl

theorem shiftBit_xor : shiftBit (x ^^^ y) = shiftBit x ^^^ shiftBit y := by
  unfold shiftBit
  simp only [and_one_eq_one_iff, UInt64.toNat_xor, Nat.xor_mod_two_eq_one, UInt64.shiftRight_xor]
  by_cases hx : x.toNat % 2 = 1 <;> by_cases hy : y.toNat % 2 = 1
  · -- the polynomial is added twice
    rw [if_neg (by omega), if_pos hx, if_pos hy, xor_assoc, UInt64.xor_comm fingerprintInit,
      xor_assoc, UInt64.xor_self, xor_zero]
  · rw [if_pos (by omega), if_pos hx, if_neg hy]
    ac_rfl
  · rw [if_pos (by omega), if_neg hx, if_pos hy]
    ac_rfl
  · rw [if_neg (by omega), if_neg hx, if_neg hy]

theorem iterate_shiftBit_xor (k : ℕ) :
    shiftBit^[k] (x ^^^ y) = shiftBit^[k] x ^^^ shiftBit^[k] y := by
  induction k generalizing x y with
  | zero => rfl
  | succ k ih => simp only [Function.iterate_succ_apply, shiftBit_xor, ih]

theorem iterate_shiftBit_of_dvd (k : ℕ) {x : UInt64} (h : 2 ^ k ∣ x.toNat) :
    (shiftBit^[k] x).toNat = x.toNat / 2 ^ k := by
  induction k generalizing x with
  | zero => simp
  | succ k ih =>
    rw [pow_succ'] at h ⊢
    have heven : ¬ x &&& 1 = 1 := by
      rw [and_one_eq_one_iff]
      have := (Nat.dvd_mul_right 2 (2 ^ k)).trans h
      omega
    have hhalf : (shiftBit x).toNat = x.toNat / 2 := by
      rw [shiftBit, if_neg heven, toNat_shiftRight]
      simp [Nat.shiftRight_eq_div_pow]
    rw [Function.iterate_succ_apply, ih (hhalf ▸ Nat.dvd_div_of_mul_dvd h), hhalf,
      Nat.div_div_eq_div_mul]

theorem split_byte : x = (x >>> 8) <<< 8 ^^^ (x &&& 0xff) := by
  apply UInt64.toBitVec_inj.mp
  ext i hi
  have hmask : (255#64)[i] = decide (i < 8) := by
    have := Nat.testBit_two_pow_sub_one 8 i
    rw [← BitVec.getLsbD_eq_getElem, BitVec.getLsbD_ofNat]
    simpa [hi] using this
  by_cases h : i < 8
  · simp [hmask, h]
  · simp [hmask, h, Nat.add_sub_of_le (Nat.not_lt.mp h), BitVec.getLsbD_eq_getElem hi]

theorem fingerprintByte_eq (b : UInt8) : fingerprintByte fp b = rabinByte fp b := by
  have hbyte : b.toUInt64 >>> 8 = 0 := by
    apply toNat_inj.mp
    have := b.toNat_lt
    simp only [toNat_shiftRight, Nat.shiftRight_eq_div_pow, UInt8.toNat_toUInt64]
    exact Nat.div_eq_of_lt this
  have hhigh : ((fp >>> 8) <<< 8).toNat = fp.toNat / 256 * 256 := by
    have := fp.toNat_lt
    simp [UInt64.toNat_shiftLeft, toNat_shiftRight, Nat.shiftRight_eq_div_pow,
      Nat.shiftLeft_eq]
    omega
  rw [rabinByte, split_byte (fp ^^^ b.toUInt64), UInt64.shiftRight_xor, hbyte, xor_zero,
    iterate_shiftBit_xor, ← fingerprintEntry_eq (_ &&& _), fingerprintByte]
  congr 1
  apply toNat_inj.mp
  rw [iterate_shiftBit_of_dvd 8 (hhigh ▸ Dvd.intro_left _ rfl), hhigh]
  simp [toNat_shiftRight, Nat.shiftRight_eq_div_pow]

end Rabin

section Order

variable {fields fields' : FieldMap} (h : fields.toList.Perm fields'.toList)

include h

theorem sortedFields_eq : sortedFields fields = sortedFields fields' := by
  let le (f g : Name × FieldDescriptor) : Prop := f.1 ≤ g.1
  have : Std.Total le := ⟨fun f g => List.le_total f.1 g.1⟩
  have : IsTrans _ le := ⟨fun _ _ _ => List.le_trans⟩
  have hperm : (sortedFields fields).Perm (sortedFields fields') :=
    (perm_insertionSort _ _).trans ((h.map _).trans (perm_insertionSort _ _).symm)
  have hnodup : ((sortedFields fields).map Prod.fst).Nodup := by
    have hnames := (sortedFields_key fields).map Prod.fst
    rw [map_map] at hnames
    exact hnames.nodup_iff.mpr fields.nodup
  refine hperm.eq_of_pairwise (fun f g hf hg hfg hgf => ?_) (pairwise_insertionSort le _)
    (pairwise_insertionSort le _)
  exact inj_on_of_nodup_map hnodup hf (hperm.mem_iff.mpr hg) (List.le_antisymm hfg hgf)

theorem lookup_assign (placed : List (Name × FieldDescriptor)) (name : Name) :
    (assign fields placed).lookup name = (assign fields' placed).lookup name := by
  have hperm : (assign fields placed).Perm (assign fields' placed) := h.map _
  cases hlookup : (assign fields placed).lookup name with
  | none =>
    rw [lookup_eq_none_iff] at hlookup
    exact (lookup_eq_none_iff.mpr fun p hp => hlookup p (hperm.mem_iff.mpr hp)).symm
  | some d =>
    obtain ⟨_, _, heq, -⟩ := lookup_eq_some_iff.mp hlookup
    have hmem : (name, d) ∈ assign fields' placed := hperm.mem_iff.mp (by simp [heq])
    have hnodup : ((assign fields' placed).map Prod.fst).Nodup := by
      rw [assign, map_map]
      exact fields'.nodup
    exact (lookup_of_mem hnodup hmem).symm

end Order

/-- The id of a schema, its lengths, and the descriptor of every field. -/
def Schema.layout (s : Schema) : Int64 × ℕ × ℕ × (Name → Option FieldDescriptor) :=
  (s.schemaId, s.fixedSizeFieldsLength, s.numberOfVarSizeFields, fun name => s.getField name)

/-- A schema depends on its fields only, and its id is made of bitwise fingerprints. -/
theorem ofFields_order_independent (typeName : Name) {fields fields' : FieldMap}
    (h : fields.toList.Perm fields'.toList) :
    (ofFields typeName fields).map layout =
        (ofFields typeName fields').map layout ∧
      ∀ (seed : UInt64) (bytes : List UInt8),
        bytes.foldl fingerprintByte seed = bytes.foldl rabinByte seed := by
  refine ⟨?_, fun seed bytes => ?_⟩
  · simp only [ofFields, fixedSizeFields, sortedFieldsIn, sortedFields_eq h,
      Option.map_bind, Function.comp_def, Option.map_map, layout, getField,
      lookup_assign h]
  · rw [funext fun fp => funext (fingerprintByte_eq fp)]

theorem ofFields_order_independent_swapped :
    let fields : FieldMap := ⟨[([97], .primitive .boolean), ([98], .notAvailable)], by decide⟩
    let fields' : FieldMap := ⟨[([98], .notAvailable), ([97], .primitive .boolean)], by decide⟩
    (ofFields [84] fields).map layout =
      (ofFields [84] fields').map layout :=
  (ofFields_order_independent [84] (Perm.swap _ _ [])).1

end HazelcastClient.Serialization.Compact
