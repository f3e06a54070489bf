import HazelcastClient.Serialization.Compact.EntryLaw

/-!
# What the reader reads

A `compact_reader` views the body of a record: it finds the fixed area and the data, and
gets every offset from the table. From a piece that the body holds, the method of the field
gets the value that has put it there, as long as the value survives its bytes.
-/

namespace HazelcastClient.Serialization.Compact

open ByteParser RandomAccess List Reader

namespace Reader

/-- The reader finds the parts of the body in its data. -/
structure Views (order : ByteOrder) (r : Reader) (schema : Schema) (b : Body) : Prop where
  schema_eq : r.schema = schema
  area : At r.data r.dataStartPosition (b.fixed ++ b.data)
  limit : r.dataStartPosition + b.length ≤ intMax
  count : b.offsets.length ≤ intMax
  table : ∀ index offset, b.offsets[index]? = some offset →
    getOffset order r.width r.data r.variableOffsetsPosition index = .ok offset

section New

variable {order : ByteOrder} {schema : Schema} {b : Body} {data : List UInt8} {pos : ℕ}

theorem new_views_fixed (hat : At data pos b.fixed) (hlimit : pos + b.fixed.length ≤ intMax)
    (hlength : schema.fixedSizeFieldsLength = b.fixed.length)
    (hcount : schema.numberOfVarSizeFields = 0) (hoffsets : b.offsets = []) :
    ∃ r, new order schema data pos = .ok r ∧ r.Views order schema b ∧
      r.position = pos + b.fixed.length := by
  rw [new, if_neg (not_not.mpr hcount), hlength, toInt_of_le hlimit, ok_bind,
    moveTo_of_le hat.bound hlimit, ok_bind]
  refine ⟨_, rfl, ⟨rfl, ?_, ?_, ?_, ?_⟩, rfl⟩
  · rwa [b.dense hoffsets, append_nil]
  · rw [Body.length, b.dense hoffsets]
    exact hlimit
  · rw [hoffsets]
    exact Nat.zero_le _
  · intro index offset h
    rw [hoffsets] at h
    cases h

theorem readInt32_length (hat : At data pos (storeInt32 order (.ofNat b.length)))
    (hlimit : pos + 4 ≤ intMax) :
    readInt32 order data pos = .ok (.ofNat b.length, pos + 4) := by
  have hread : Reads intMax (readInt32 order) (storeInt32 order (.ofNat b.length)) (.ofNat b.length) :=
    reads_readInt32 _
  have h := hread data pos hat (by rw [storeInt32_length]; exact hlimit)
  rwa [storeInt32_length] at h

theorem new_views_variable
    (hat : At data pos (storeInt32 order (.ofNat b.length) ++ (b.fixed ++ b.data) ++
      offsetBytes order b.length b.offsets))
    (hlimit : pos + (4 + b.length + b.offsets.length * offsetWidth b.length) ≤ intMax)
    (hcount : schema.numberOfVarSizeFields = b.offsets.length) (hoffsets : b.offsets ≠ []) :
    ∃ r, new order schema data pos = .ok r ∧ r.Views order schema b ∧
      r.position = pos + (4 + b.length + b.offsets.length * offsetWidth b.length) := by
  have hcounted := le_mul_offsetWidth b.offsets.length b.length
  have hpos : schema.numberOfVarSizeFields ≠ 0 := by
    rw [hcount]
    exact mt length_eq_zero_iff.mp hoffsets
  have harea : At data (pos + 4) (b.fixed ++ b.data) := by
    have h := hat.left.right
    rwa [storeInt32_length] at h
  have htable : At data (pos + 4 + b.length) (offsetBytes order b.length b.offsets) := by
    have h := hat.right
    rwa [length_append, length_append, storeInt32_length, ← Nat.add_assoc] at h
  have hend : pos + 4 + b.length + b.offsets.length * offsetWidth b.length ≤ data.length := by
    have h := htable.bound
    rwa [offsetBytes_length] at h
  have hwrap : (pos + 4 + b.length) % 2 ^ 32 = pos + 4 + b.length := by
    unfold intMax at hlimit
    omega
  have hle : b.length ≤ intMax := by omega
  rw [new, if_pos hpos, readInt32_length hat.left.left (by omega), ok_bind]
  dsimp only
  rw [toUInt32_ofNat hle, hwrap, hcount, toInt_of_le (by omega), ok_bind,
    moveTo_of_le hend (by omega), ok_bind]
  refine ⟨_, rfl, ⟨rfl, harea, ?_, ?_, ?_⟩, ?_⟩
  · dsimp only
    omega
  · omega
  · intro index offset h
    have hvalid : ∀ o ∈ b.offsets, IsOffset b.length o := b.valid
    have hroom : pos + 4 + b.length + (offsetBytes order b.length b.offsets).length ≤ intMax := by
      rw [offsetBytes_length]
      omega
    dsimp only
    exact getOffset_of_table hle hvalid htable hroom h
  · dsimp only
    omega

theorem new_views (hat : At data pos (b.bytes order)) (hlimit : pos + (b.bytes order).length ≤ intMax)
    (hlength : schema.fixedSizeFieldsLength = b.fixed.length)
    (hcount : schema.numberOfVarSizeFields = b.offsets.length) :
    ∃ r, new order schema data pos = .ok r ∧ r.Views order schema b ∧
      r.position = pos + (b.bytes order).length := by
  have hbytes := Body.bytes_length order b
  rw [Body.bytes] at hat
  by_cases hoffsets : b.offsets = []
  · rw [if_pos hoffsets] at hbytes hat
    rw [hbytes] at hlimit ⊢
    rw [hoffsets, length_nil] at hcount
    exact new_views_fixed hat hlimit hlength hcount hoffsets
  · rw [if_neg hoffsets] at hbytes hat
    rw [hbytes] at hlimit ⊢
    exact new_views_variable hat hlimit hcount hoffsets

theorem new_error (hat : At data pos (b.bytes order))
    (hle : schema.numberOfVarSizeFields ≠ 0 → b.length ≤ intMax)
    (hlarge : intMax < pos + (b.bytes order).length)
    (hlength : schema.fixedSizeFieldsLength = b.fixed.length)
    (hcount : schema.numberOfVarSizeFields = b.offsets.length) :
    ∃ e, new order schema data pos = .error e := by
  have hbytes := Body.bytes_length order b
  rw [Body.bytes] at hat
  by_cases hoffsets : b.offsets = []
  · rw [if_pos hoffsets] at hbytes
    rw [hoffsets, length_nil] at hcount
    refine ⟨.undefined, ?_⟩
    rw [new, if_neg (not_not.mpr hcount), hlength, toInt_of_lt (by omega), error_bind]
  · rw [if_neg hoffsets] at hbytes hat
    have hpos : schema.numberOfVarSizeFields ≠ 0 := by
      rw [hcount]
      exact mt length_eq_zero_iff.mp hoffsets
    have hle := hle hpos
    rw [new, if_pos hpos]
    by_cases hfront : pos + 4 ≤ intMax
    · have hwrap : (pos + 4 + b.length) % 2 ^ 32 = pos + 4 + b.length := by
        unfold intMax at hfront hle
        omega
      rw [readInt32_length hat.left.left hfront, ok_bind]
      dsimp only
      rw [toUInt32_ofNat hle, hwrap, hcount, toInt_of_lt (by omega), error_bind]
      exact ⟨_, rfl⟩
    · have hbound := hat.left.left.bound
      rw [storeInt32_length] at hbound
      have hread : readBytes 4 data pos = .error .undefined := by
        rw [readBytes, if_pos hbound, if_neg hfront]
      have hfail : readInt32 order data pos = .error .undefined := Parser.bind_of_error hread
      rw [hfail, error_bind]
      exact ⟨_, rfl⟩

end New

section Methods

variable {order : ByteOrder} {schema : Schema} {b : Body} {r : Reader} {d : FieldDescriptor}
  {offset : ℕ} {bytes : List UInt8} {index : ℕ}

section

variable (hr : r.Views order schema b)

include hr

theorem Views.fixed (hat : At b.fixed offset bytes) :
    At r.data (r.dataStartPosition + offset) bytes ∧
      r.dataStartPosition + offset + bytes.length ≤ intMax := by
  have hlimit := hr.limit
  have hbound := hat.bound
  rw [Body.length] at hlimit
  exact ⟨hr.area.trans (hat.append b.data), by omega⟩

section

variable (hoffset : d.offset = offset)

include hoffset

theorem Views.position (hlt : offset ≤ b.fixed.length) :
    toInt (toSize (d.offset + r.dataStartPosition)) = .ok (r.dataStartPosition + offset) := by
  have hlimit := hr.limit
  rw [Body.length] at hlimit
  rw [hoffset, ← Nat.cast_add, toSize_natCast, Nat.add_comm, toInt_of_le (by omega)]

theorem readFixed_boolean {bit : ℕ} {value : Bool} (hbit : d.bitOffset.toInt = bit)
    (hholds : b.Holds (.bit offset bit value)) : r.readFixed order d .boolean = .ok value := by
  obtain ⟨byte, hat, hvalue⟩ := hholds
  have hbound := hat.bound
  obtain ⟨hdata, hlimit⟩ := hr.fixed hat
  have hnonneg : (0 : Int8) ≤ d.bitOffset := by
    rw [Int8.le_iff_toInt_le, hbit]
    exact Int.natCast_nonneg _
  rw [readFixed, hr.position hoffset (by omega), ok_bind,
    reads_readByte byte _ _ hdata hlimit, ok_bind, if_pos hnonneg, hbit, Int.toNat_natCast, hvalue]

theorem readFixed_number {n : Numeric} {value : BitVec (8 * n.size)}
    (hholds : b.Holds (.range offset (primitiveBytes order (.numeric n) value))) :
    r.readFixed order d (.numeric n) = .ok value := by
  have hbound := At.bound hholds
  obtain ⟨hdata, hlimit⟩ := hr.fixed hholds
  rw [readFixed, hr.position hoffset (by omega), ok_bind,
    reads_readPrimitive (.numeric n) value _ _ hdata hlimit, ok_bind]

end

end

theorem toUnsigned_natCast {n : ℕ} (h : n ≤ intMax) : toUnsigned (n : ℤ) = n := by
  unfold toUnsigned
  unfold intMax at h
  omega

section

variable (hr : r.Views order schema b)

include hr

section

variable (hindex : d.index = index)

include hindex

theorem readVariableSize_absent (hholds : b.Holds (.entry index none)) {T : Type}
    (read : List UInt8 → ℕ → Result (Option T)) : r.readVariableSize order d read = .ok none := by
  have hentry : b.offsets[index]? = some (-1) := hholds
  have hlt := (List.getElem?_eq_some_iff.mp hentry).1
  have hcount := hr.count
  rw [readVariableSize, readVarSizePosition, hindex, toUnsigned_natCast (by omega),
    hr.table index _ hentry, ok_bind, if_pos rfl, ok_bind, if_pos rfl]

theorem readVariableSize_present (hholds : b.Holds (.entry index (some bytes))) :
    ∃ pos, At r.data pos bytes ∧ pos + bytes.length ≤ intMax ∧
      ∀ {T : Type} (read : List UInt8 → ℕ → Result (Option T)),
        r.readVariableSize order d read = read r.data pos := by
  obtain ⟨k, hentry, hat⟩ := hholds
  have hlt := (List.getElem?_eq_some_iff.mp hentry).1
  have hcount := hr.count
  have hlimit := hr.limit
  have hbound := hat.bound
  have hdata : At r.data (r.dataStartPosition + (b.fixed.length + k)) bytes :=
    hr.area.trans (hat.shift b.fixed)
  have hdatabound := hdata.bound
  rw [Body.length] at hlimit
  refine ⟨_, hdata, by omega, fun read => ?_⟩
  rw [readVariableSize, readVarSizePosition, hindex, toUnsigned_natCast (by omega),
    hr.table index _ hentry, ok_bind, if_neg (by omega), ok_bind, if_neg (by omega),
    ← Nat.cast_add, Nat.add_comm, moveTo_of_le (by omega) (by omega), ok_bind]

theorem readVariableSize_iff {T : Type} {write : T → Output → Result Output}
    {read : List UInt8 → ℕ → Result (Option T)} {size : T → ℕ} {survives : T → Prop}
    {value : Option T} {payload : Option (List UInt8)} (hholds : b.Holds (.entry index payload))
    (h : Payload write read size survives value payload) :
    r.readVariableSize order d read = .ok value ↔ ∀ v, value = some v → survives v := by
  cases h with
  | absent =>
    rw [readVariableSize_absent hr hindex hholds]
    exact iff_of_true rfl fun v hv => by cases hv
  | present hsize hwrite hread hlost =>
    rename_i v bytes
    obtain ⟨pos, hat, hlimit, heq⟩ := readVariableSize_present hr hindex hholds
    rw [heq read]
    constructor
    · intro hok w hw
      obtain rfl := Option.some.inj hw
      by_contra hs
      exact hlost hs r.data pos hat hlimit hok
    · intro hs
      exact hread (hs v rfl) r.data pos hat hlimit

end

end

end Methods

end Reader

section Fields

variable {order : ByteOrder} {R : Type} {c : Codec R} {σ : R → ℕ} {S : R → Prop}
  {schema : Schema} {b : Body} {r : Reader} {d : FieldDescriptor} {e : Entry R} {piece : Piece}

theorem readField_eq (order : ByteOrder) (c : Codec R) (hschema : r.schema = schema) {name : Name}
    (hd : schema.getField name = some d) :
    (∀ p, d.kind = .primitive p → r.readField order c name (.primitive p) = r.readFixed order d p) ∧
    (∀ p, d.kind = .arrayOf p → r.readField order c name (.arrayOf p) =
      r.readVariableSize order d (vector order p)) ∧
    (∀ i, d.kind = .nullable i → r.readField order c name (.nullable i) =
      r.readVariableSize order d (present (readItem order c i))) ∧
    ∀ i, d.kind = .arrayOfNullable i → r.readField order c name (.arrayOfNullable i) =
      r.readVariableSize order d (items order (readItem order c i)) := by
  have hget : r.getFieldDescriptor name = .ok d := by
    rw [getFieldDescriptor, hschema, hd]
  have hgetOf : ∀ kind, d.kind = kind → r.getFieldDescriptorOf name kind = .ok d := by
    intro kind hkind
    rw [getFieldDescriptorOf, hget, ok_bind, if_neg (not_not.mpr hkind)]
  refine ⟨fun p hkind => ?_, fun p hkind => ?_, fun i hkind => ?_, fun i hkind => ?_⟩
  · rw [readField, readPrimitiveField, hget, ok_bind, if_pos hkind]
  · rw [readField, readArrayOfPrimitive, hget, ok_bind, if_pos hkind]
  · cases i with
    | primitive p =>
      have hne : d.kind ≠ .primitive p := by simp [hkind]
      rw [readField, readNullablePrimitive, hget, ok_bind, if_neg hne,
        if_pos hkind]
      rfl
    | _ =>
      simp only [readField]
      rw [hgetOf _ hkind, ok_bind]
  · cases i with
    | primitive p =>
      have hne : d.kind ≠ .arrayOf p := by simp [hkind]
      rw [readField, readArrayOfNullable, hget, ok_bind, if_neg hne,
        if_pos hkind]
      rfl
    | _ =>
      simp only [readField]
      rw [hgetOf _ hkind, ok_bind]

/-- A field comes back from a body that holds its piece when its value survives. -/
theorem readField_iff (hr : r.Views order schema b) (hd : schema.getField e.name = some d)
    (hkind : d.kind = e.kind) (hputs : e.Puts order c σ S d piece) (hholds : b.Holds piece) :
    r.readField order c e.name e.kind = .ok e.value ↔ e.Survives S := by
  obtain ⟨hprimitive, harray, hnullable, hnullables⟩ := readField_eq order c hr.schema_eq hd
  cases hputs with
  | boolean hoffset hbit =>
    rw [hprimitive _ hkind]
    exact iff_of_true (readFixed_boolean hr hoffset hbit hholds) trivial
  | number hoffset =>
    rw [hprimitive _ hkind]
    exact iff_of_true (readFixed_number hr hoffset hholds) trivial
  | vector hindex h =>
    rw [harray _ hkind]
    exact readVariableSize_iff hr hindex hholds h
  | item hindex h =>
    rw [hnullable _ hkind]
    exact readVariableSize_iff hr hindex hholds h
  | items hindex h =>
    rw [hnullables _ hkind]
    exact readVariableSize_iff hr hindex hholds h

end Fields

end HazelcastClient.Serialization.Compact
