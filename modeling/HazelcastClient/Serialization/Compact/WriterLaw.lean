import Mathlib.Data.List.GetD
import HazelcastClient.Serialization.Compact.EntryLaw

/-!
# What the writer writes

A `default_compact_writer` shows a body behind the bytes that were there before. Each
method puts the piece of its field into the body, and `end()` completes the bytes of the
body. Any step can fail when the output gets too large for an `int`, and in no other case.
-/

namespace HazelcastClient.Serialization.Compact

open RandomAccess List Except Writer Body

namespace Writer

/-- The writer has put the body together behind `base`. -/
structure Shows (w : Writer) (schema : Schema) (base : Output) (b : Body) : Prop where
  schema_eq : w.schema = schema
  out_eq : w.out = base ++ (b.fixed ++ b.data)
  start_eq : w.dataStartPosition = base.length
  offsets_eq : w.fieldOffsets = b.offsets

/-- A method goes on with the body `b`, unless the output gets too large. -/
def Reaches (schema : Schema) (base : Output) (b : Body) (result : Result Writer) : Prop :=
  (∃ w : Writer, result = .ok w ∧ w.Shows schema base b) ∨
    intMax < base.length + b.length ∧ ∃ e, result = .error e

section Methods

variable {order : ByteOrder} {schema : Schema} {base : Output} {b : Body} {w : Writer}
  {name : Name} {kind : FieldKind} {d : FieldDescriptor} {offset : ℕ} {index : ℕ}

section

variable (hw : w.Shows schema base b)

include hw

theorem Shows.length : w.out.length = base.length + b.length := by
  rw [hw.out_eq, length_append, length_append, Body.length]

theorem Shows.checkFieldDefinition (hd : schema.getField name = some d) (hkind : d.kind = kind) :
    w.checkFieldDefinition name kind = .ok d := by
  rw [Writer.checkFieldDefinition, hw.schema_eq, hd]
  exact if_neg (not_not.mpr hkind)

theorem Shows.position (hoffset : d.offset = offset) :
    toSize (d.offset + w.dataStartPosition) = base.length + offset := by
  rw [hoffset, hw.start_eq, ← Nat.cast_add, toSize_natCast, Nat.add_comm]

theorem Shows.setFixed {bytes : List UInt8} (h : offset + bytes.length ≤ b.fixed.length) :
    ({ w with out := overwrite w.out (base.length + offset) bytes } : Writer).Shows schema base
      (b.setFixed offset bytes) := by
  obtain ⟨hf, hd, ho⟩ := setFixed_of_le h
  refine ⟨hw.schema_eq, ?_, hw.start_eq, ?_⟩
  · rw [hf, hd, hw.out_eq, overwrite_append_right, overwrite_append_left h]
  · rw [ho]
    exact hw.offsets_eq

theorem Shows.setFieldOffset (hindex : d.index = index) (h : index < b.offsets.length)
    (offset : ℤ) :
    w.setFieldOffset d.index offset =
      .ok { w with fieldOffsets := b.offsets.set index offset } := by
  rw [Writer.setFieldOffset, hindex, hw.offsets_eq, if_pos ⟨by omega, by omega⟩]
  rfl

end

theorem writeBooleanBitAt_cases {bit : ℕ} {out : Output} (value : Bool) (h : index < out.length)
    (hbit : bit < 32) :
    writeBooleanBitAt index bit value out =
        .ok (overwrite out index [setBitOf (out.getD index 0) bit value]) ∨
      intMax < out.length ∧ ∃ e, writeBooleanBitAt index bit value out = .error e := by
  have hroom : index + 1 ≤ out.length := h
  rcases checkAvailable_cases hroom with hok | ⟨hlarge, e, herr⟩
  · left
    rw [writeBooleanBitAt, hok, ok_bind, if_pos hbit]
  · right
    refine ⟨hlarge, e, ?_⟩
    rw [writeBooleanBitAt, herr, error_bind]

section

variable (hw : w.Shows schema base b) (hd : schema.getField name = some d)

include hw hd

theorem writeBoolean_reaches {value : Bool} {bit : ℕ} (hkind : d.kind = .primitive .boolean)
    (hoffset : d.offset = offset) (hbit : d.bitOffset.toInt = bit) (hlt : offset < b.fixed.length)
    (hbits : bit < 8) :
    Reaches schema base (b.setFixed offset [setBitOf (b.fixed.getD offset 0) bit value])
      (w.writeBoolean name value) := by
  have hget : w.out.getD (base.length + offset) 0 = b.fixed.getD offset 0 := by
    rw [hw.out_eq, getD_append_right _ _ _ _ (Nat.le_add_right _ _), Nat.add_sub_cancel_left,
      getD_append _ _ _ _ hlt]
  have hroom : base.length + offset < w.out.length := by
    rw [hw.length, Body.length]
    omega
  have hin : offset + [setBitOf (b.fixed.getD offset 0) bit value].length ≤ b.fixed.length := hlt
  have hwide : bit < 32 := by omega
  rw [writeBoolean, hw.checkFieldDefinition hd hkind, ok_bind, hw.position hoffset, hbit,
    toSize_natCast]
  rcases writeBooleanBitAt_cases value hroom hwide with hok | ⟨hlarge, e, herr⟩
  · left
    rw [hok, hget, ok_bind]
    exact ⟨_, rfl, hw.setFixed hin⟩
  · right
    rw [herr, error_bind, setFixed_length hin, ← hw.length]
    exact ⟨hlarge, e, rfl⟩

theorem writeNumber_reaches {n : Numeric} {value : BitVec (8 * n.size)}
    (hkind : d.kind = .primitive (.numeric n)) (hoffset : d.offset = offset)
    (hin : offset + (primitiveBytes order (.numeric n) value).length ≤ b.fixed.length) :
    Reaches schema base (b.setFixed offset (primitiveBytes order (.numeric n) value))
      (w.writeNumber order name n value) := by
  have hsize : (primitiveBytes order (.numeric n) value).length = n.size :=
    primitiveBytes_length _ _
  have hroom : base.length + offset + n.size ≤ w.out.length := by
    rw [hw.length, Body.length]
    omega
  rw [writeNumber, getFixedSizeFieldPosition, hw.checkFieldDefinition hd hkind, ok_bind, ok_bind,
    hw.position hoffset]
  rcases writeAt_cases order value.toNat hroom with hok | ⟨hlarge, e, herr⟩
  · left
    rw [hok, ok_bind]
    exact ⟨_, rfl, hw.setFixed hin⟩
  · right
    rw [herr, error_bind, setFixed_length hin, ← hw.length]
    exact ⟨hlarge, e, rfl⟩

theorem writeVariableSizeField_reaches {T : Type} {write : T → Output → Result Output}
    {read : List UInt8 → ℕ → Result (Option T)} {size : T → ℕ} {survives : T → Prop}
    {value : Option T} {payload : Option (List UInt8)} (hkind : d.kind = kind)
    (hindex : d.index = index) (hin : index < b.offsets.length)
    (h : Payload write read size survives value payload) :
    Reaches schema base (b.setEntry index payload)
      (w.writeVariableSizeField name kind write value) := by
  obtain ⟨hf, hdata, ho⟩ := setEntry_of_lt payload hin
  have hlen := setEntry_length payload hin
  have hcheck := hw.checkFieldDefinition hd hkind
  cases h with
  | absent =>
    left
    rw [writeVariableSizeField, setPositionAsNull, hcheck, ok_bind,
      hw.setFieldOffset hindex hin]
    refine ⟨_, rfl, hw.schema_eq, ?_, hw.start_eq, ho.symm⟩
    rw [hf, hdata, Option.getD_none, append_nil]
    exact hw.out_eq
  | present hsize hwrite hread hlost =>
    rename_i v bytes
    rw [Option.getD_some] at hdata hlen
    rw [writeVariableSizeField, setPosition, hcheck, ok_bind]
    have hposition : w.out.length - w.dataStartPosition = b.length := by
      rw [hw.length, hw.start_eq, Nat.add_sub_cancel_left]
    rw [hposition]
    by_cases hle : b.length ≤ intMax
    · rw [toInt_of_le hle, ok_bind, hw.setFieldOffset hindex hin, ok_bind]
      dsimp only
      rcases hwrite w.out with hok | ⟨hlarge, e, herr⟩
      · left
        rw [hok, ok_bind]
        refine ⟨_, rfl, hw.schema_eq, ?_, hw.start_eq, ho.symm⟩
        rw [hf, hdata, hw.out_eq]
        simp only [append_assoc]
      · right
        rw [herr, error_bind]
        rw [hw.length] at hlarge
        exact ⟨by omega, e, rfl⟩
    · right
      rw [toInt_of_lt (by omega), error_bind, error_bind]
      exact ⟨by omega, _, rfl⟩

end

end Methods

end Writer

section Run

variable {order : ByteOrder} {R : Type} {c : Codec R} {σ : R → ℕ} {S : R → Prop}
  {schema : Schema} {base : Output} {b : Body} {w : Writer} {ps : List Piece} {es : List (Entry R)}
  {out : Output}

/-- The entry belongs to a field of the schema, and puts the piece into the record. -/
def Entry.PutsIn (order : ByteOrder) (c : Codec R) (σ : R → ℕ) (S : R → Prop) (schema : Schema)
    (e : Entry R) (piece : Piece) : Prop :=
  ∃ d, schema.getField e.name = some d ∧ d.kind = e.kind ∧ e.Puts order c σ S d piece

theorem writeField_reaches {e : Entry R} {piece : Piece} (hw : w.Shows schema base b)
    (he : e.PutsIn order c σ S schema piece)
    (hin : piece.Within b.fixed.length b.offsets.length) :
    Writer.Reaches schema base (b.put piece) (w.writeField order c e.name e.kind e.value) := by
  obtain ⟨d, hd, hkind, hputs⟩ := he
  cases hputs with
  | boolean hoffset hbit => exact writeBoolean_reaches hw hd hkind hoffset hbit hin.1 hin.2
  | number hoffset => exact writeNumber_reaches hw hd hkind hoffset hin
  | vector hindex h | item hindex h | items hindex h =>
    exact writeVariableSizeField_reaches hw hd hkind hindex hin h

theorem length_le_fill (h : ∀ p ∈ ps, p.Within b.fixed.length b.offsets.length) :
    b.length ≤ (b.fill ps).length := by
  obtain ⟨hf, hd, -⟩ := fill_cases h
  rw [Body.length, Body.length, hf, hd, length_append]
  omega

theorem writeEntries_reaches (hw : w.Shows schema base b)
    (hputs : List.Forall₂ (fun e p => e.PutsIn order c σ S schema p) es ps)
    (hin : ∀ p ∈ ps, p.Within b.fixed.length b.offsets.length) :
    Writer.Reaches schema base (b.fill ps) (writeEntries order c w es) := by
  induction hputs generalizing w b with
  | nil => exact .inl ⟨w, rfl, hw⟩
  | cons he hes ih =>
    rename_i e piece es ps
    have hpiece := hin piece mem_cons_self
    have hrest : ∀ p ∈ ps,
        p.Within (b.put piece).fixed.length (b.put piece).offsets.length :=
      fun p hp => (within_put hpiece).mpr (hin p (mem_cons_of_mem _ hp))
    rcases writeField_reaches hw he hpiece with ⟨w', hok, hw'⟩ | ⟨hlarge, err, herr⟩
    · rw [writeEntries, hok, ok_bind]
      exact ih hw' hrest
    · right
      have hle := length_le_fill hrest
      rw [writeEntries, herr, error_bind]
      refine ⟨?_, err, rfl⟩
      change intMax < base.length + ((b.put piece).fill ps).length
      omega

theorem zeroBytes_length (n : ℕ) : (zeroBytes n).length = n := length_replicate

theorem finish_fixed (hw : w.Shows schema out b) (hcount : schema.numberOfVarSizeFields = 0)
    (hoffsets : b.offsets = []) :
    w.finish order = .ok (out ++ b.bytes order) := by
  rw [finish, hw.schema_eq, if_pos hcount, hw.out_eq, b.dense hoffsets, append_nil,
    bytes, if_pos hoffsets]

theorem finish_variable (hw : w.Shows schema (out ++ zeroBytes 4) b)
    (hcount : schema.numberOfVarSizeFields ≠ 0) (hoffsets : b.offsets ≠ []) :
    w.finish order = .ok (out ++ b.bytes order) ∨
      intMax < out.length + (b.bytes order).length ∧ ∃ e, w.finish order = .error e := by
  have hzero : (zeroBytes 4).length = 4 := zeroBytes_length 4
  have hlength : w.out.length - w.dataStartPosition = b.length := by
    rw [hw.length, hw.start_eq, Nat.add_sub_cancel_left]
  have hstart : w.dataStartPosition - 4 = out.length := by
    rw [hw.start_eq, length_append, hzero, Nat.add_sub_cancel]
  have hout : w.out ++ offsetBytes order b.length b.offsets =
      out ++ zeroBytes 4 ++ (b.fixed ++ b.data ++ offsetBytes order b.length b.offsets) := by
    rw [hw.out_eq]
    simp only [append_assoc]
  have hbytes := bytes_length order b
  rw [if_neg hoffsets] at hbytes
  rw [finish, hw.schema_eq, if_neg hcount]
  dsimp only
  rw [hlength, hstart, hw.offsets_eq, hout]
  by_cases hle : b.length ≤ intMax
  · rw [toInt_of_le hle, ok_bind]
    set rest := b.fixed ++ b.data ++ offsetBytes order b.length b.offsets with hrest
    have hrestlen : (out ++ zeroBytes 4 ++ rest).length = out.length + (b.bytes order).length := by
      rw [hbytes, length_append, length_append, hzero, hrest, length_append,
        length_append, offsetBytes_length, Body.length]
      omega
    have hroom : out.length + 4 ≤ (out ++ zeroBytes 4 ++ rest).length := by omega
    rcases writeAt_cases order b.length hroom with hok | ⟨hlarge, e, herr⟩
    · left
      rw [hok, overwrite_middle out (zeroBytes 4) rest (by rw [order.bytes_length, hzero]),
        bytes_eq_storeInt32 hle, bytes, if_neg hoffsets]
      simp only [hrest, append_assoc]
    · right
      exact ⟨by omega, e, herr⟩
  · right
    rw [toInt_of_lt (by omega), error_bind]
    exact ⟨by omega, _, rfl⟩

def emptyBody (schema : Schema) : Body :=
  empty schema.fixedSizeFieldsLength schema.numberOfVarSizeFields

theorem new_shows_fixed (schema : Schema) (out : Output)
    (hcount : schema.numberOfVarSizeFields = 0) :
    (new schema out).Shows schema out (emptyBody schema) := by
  rw [new, if_neg (not_not.mpr hcount)]
  refine ⟨rfl, ?_, rfl, ?_⟩
  · rw [emptyBody, empty, append_nil]
  · rw [emptyBody, empty, hcount]
    rfl

theorem new_shows_variable (schema : Schema) (out : Output)
    (hcount : schema.numberOfVarSizeFields ≠ 0) :
    (new schema out).Shows schema (out ++ zeroBytes 4) (emptyBody schema) := by
  rw [new, if_pos hcount]
  refine ⟨rfl, ?_, ?_, rfl⟩
  · have hsplit : zeroBytes (schema.fixedSizeFieldsLength + 4) =
        zeroBytes 4 ++ zeroBytes schema.fixedSizeFieldsLength := by
      rw [zeroBytes, zeroBytes, zeroBytes, Nat.add_comm, replicate_add]
    dsimp only
    rw [hsplit, emptyBody, empty, append_nil, append_assoc]
  · rw [length_append, zeroBytes_length]

section

variable (hputs : List.Forall₂ (fun e p => e.PutsIn order c σ S schema p) es ps)
  (hin : ∀ p ∈ ps, p.Within schema.fixedSizeFieldsLength schema.numberOfVarSizeFields)

include hputs hin

/-- A record is written in any order of its fields: what they put into the body is
appended to the output. -/
theorem appends_writeRecord :
    Appends (writeRecord order c schema es) (((emptyBody schema).fill ps).bytes order) := by
  have hlengths : (emptyBody schema).fixed.length = schema.fixedSizeFieldsLength ∧
      (emptyBody schema).offsets.length = schema.numberOfVarSizeFields :=
    ⟨length_replicate, length_replicate⟩
  rw [← hlengths.1, ← hlengths.2] at hin
  obtain ⟨hf, hd, ho⟩ := fill_cases hin
  rw [hlengths.2] at ho
  set b := (emptyBody schema).fill ps with hb
  have hbytes := bytes_length order b
  intro out
  by_cases hcount : schema.numberOfVarSizeFields = 0
  · have hnil : b.offsets = [] := length_eq_zero_iff.mp (ho.trans hcount)
    rw [if_pos hnil] at hbytes
    have hlen : b.length = b.fixed.length := by rw [Body.length, b.dense hnil]; rfl
    rcases writeEntries_reaches (new_shows_fixed schema out hcount) hputs hin with
      ⟨w, hok, hw⟩ | ⟨hlarge, e, herr⟩
    · left
      rw [writeRecord, hok, ok_bind]
      exact finish_fixed hw hcount hnil
    · right
      rw [← hb] at hlarge
      rw [writeRecord, herr, error_bind]
      exact ⟨by omega, e, rfl⟩
  · have hne : b.offsets ≠ [] := by
      intro hnil
      rw [hnil] at ho
      exact hcount ho.symm
    rw [if_neg hne] at hbytes
    rcases writeEntries_reaches (new_shows_variable schema out hcount) hputs hin with
      ⟨w, hok, hw⟩ | ⟨hlarge, e, herr⟩
    · rw [writeRecord, hok, ok_bind]
      exact finish_variable hw hcount hne
    · right
      rw [← hb, length_append, zeroBytes_length] at hlarge
      rw [writeRecord, herr, error_bind]
      exact ⟨by omega, e, rfl⟩

/-- A record with offsets is written only if its length is an `int`. -/
theorem length_le_of_writeRecord (hcount : schema.numberOfVarSizeFields ≠ 0) {data : Output}
    (h : writeRecord order c schema es out = .ok data) :
    ((emptyBody schema).fill ps).length ≤ intMax := by
  have hroom : ∀ p ∈ ps, p.Within (emptyBody schema).fixed.length
      (emptyBody schema).offsets.length := by
    rwa [emptyBody, empty, zeroBytes_length, length_replicate]
  obtain ⟨w, hwrite, hfinish⟩ := bind_eq_ok h
  rcases writeEntries_reaches (new_shows_variable schema out hcount) hputs hroom with
    ⟨w', hok, hw⟩ | ⟨-, e, herr⟩
  · obtain rfl : w = w' := ok.inj (hwrite.symm.trans hok)
    have hlength : w.out.length - w.dataStartPosition = ((emptyBody schema).fill ps).length := by
      rw [hw.length, hw.start_eq, Nat.add_sub_cancel_left]
    rw [finish, hw.schema_eq, if_neg hcount, hlength] at hfinish
    by_contra hlarge
    dsimp only at hfinish
    rw [toInt_of_lt (Nat.not_le.mp hlarge), error_bind] at hfinish
    cases hfinish
  · rw [hwrite] at herr
    cases herr

end

end Run

section Failing

variable {order : ByteOrder} {R : Type} {c : Codec R} {schema : Schema} {e : Entry R}
  {es : List (Entry R)} {w w' : Writer} {name : Name}

theorem setFieldOffset_schema {index offset : ℤ} (h : w.setFieldOffset index offset = .ok w') :
    w'.schema = w.schema := by
  unfold setFieldOffset at h
  split at h
  · cases h
    rfl
  · cases h

theorem writeVariableSizeField_schema {T : Type} {write : T → Output → Result Output}
    {kind : FieldKind} {value : Option T}
    (h : w.writeVariableSizeField name kind write value = .ok w') : w'.schema = w.schema := by
  cases value with
  | none =>
    obtain ⟨d, -, hset⟩ := bind_eq_ok h
    exact setFieldOffset_schema hset
  | some v =>
    obtain ⟨w₁, hposition, hrest⟩ := bind_eq_ok h
    obtain ⟨d, -, hrest₁⟩ := bind_eq_ok hposition
    obtain ⟨n, -, hset⟩ := bind_eq_ok hrest₁
    obtain ⟨out, -, hlast⟩ := bind_eq_ok hrest
    have hschema := setFieldOffset_schema hset
    cases hlast
    exact hschema

theorem writeField_schema (h : w.writeField order c e.name e.kind e.value = .ok w') :
    w'.schema = w.schema := by
  match e, h with
  | ⟨_, .primitive .boolean, _⟩, h | ⟨_, .primitive (.numeric _), _⟩, h =>
    obtain ⟨d, -, hrest⟩ := bind_eq_ok h
    obtain ⟨out, -, hlast⟩ := bind_eq_ok hrest
    cases hlast
    rfl
  | ⟨_, .arrayOf _, _⟩, h | ⟨_, .nullable _, _⟩, h | ⟨_, .arrayOfNullable _, _⟩, h =>
    exact writeVariableSizeField_schema h

/-- No writer for the schema can write the entry. -/
def Entry.Unwritable (order : ByteOrder) (c : Codec R) (schema : Schema) (e : Entry R) : Prop :=
  ∀ w : Writer, w.schema = schema → ∃ err, w.writeField order c e.name e.kind e.value = .error err

theorem writeEntries_error (he : e ∈ es) (hfail : e.Unwritable order c schema) (w : Writer)
    (hw : w.schema = schema) :
    ∃ err, writeEntries order c w es = .error err := by
  induction es generalizing w with
  | nil => cases he
  | cons e' es ih =>
    rw [writeEntries]
    cases hstep : w.writeField order c e'.name e'.kind e'.value with
    | error err => exact ⟨err, rfl⟩
    | ok w' =>
      rw [ok_bind]
      rcases mem_cons.mp he with rfl | hmem
      · obtain ⟨err, herr⟩ := hfail w hw
        rw [herr] at hstep
        cases hstep
      · exact ih hmem w' ((writeField_schema hstep).trans hw)

theorem writeRecord_error (he : e ∈ es) (hfail : e.Unwritable order c schema) (out : Output) :
    ∃ err, writeRecord order c schema es out = .error err := by
  have hschema : (new schema out).schema = schema := by
    unfold new
    split <;> rfl
  obtain ⟨err, herr⟩ := writeEntries_error he hfail (new schema out) hschema
  exact ⟨err, by rw [writeRecord, herr, error_bind]⟩

/-- A boolean with a negative bit cannot be written: there is no shift by such a number. -/
theorem unwritable_of_negative_bit {value : Bool} {d : FieldDescriptor}
    (hd : schema.getField name = some d) (hbit : d.bitOffset < 0) :
    Entry.Unwritable order c schema ⟨name, .primitive .boolean, value⟩ := by
  intro w hw
  have hwide : ¬ toSize d.bitOffset.toInt < 32 := by
    have hneg : d.bitOffset.toInt < 0 := by rwa [Int8.lt_iff_toInt_lt] at hbit
    have hlow := Int8.le_toInt d.bitOffset
    rw [toSize, if_neg (by omega)]
    omega
  rw [writeField, writeBoolean, checkFieldDefinition, hw, hd]
  dsimp only
  by_cases hkind : d.kind = .primitive .boolean
  · rw [if_neg (not_not.mpr hkind), ok_bind, writeBooleanBitAt]
    cases checkAvailable (toSize (d.offset + w.dataStartPosition)) 1 w.out with
    | error err => exact ⟨err, rfl⟩
    | ok u =>
      rw [ok_bind, if_neg hwide]
      exact ⟨_, rfl⟩
  · rw [if_pos hkind]
    exact ⟨_, rfl⟩

theorem writeVariableSizeField_error {T : Type} {write : T → Output → Result Output} {v : T}
    (h : ∀ out, ∃ err, write v out = .error err) (w : Writer) (name : Name) (kind : FieldKind) :
    ∃ err, w.writeVariableSizeField name kind write (some v) = .error err := by
  rw [writeVariableSizeField]
  cases w.setPosition name kind with
  | error err => exact ⟨err, rfl⟩
  | ok w' =>
    obtain ⟨err, herr⟩ := h w'.out
    exact ⟨err, by rw [ok_bind, herr, error_bind]⟩

end Failing

end HazelcastClient.Serialization.Compact
