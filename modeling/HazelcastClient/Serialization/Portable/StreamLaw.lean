import HazelcastClient.Serialization.Portable.Draft

/-!
# Reading the parts of a portable

The values of the format are read back, except for an empty array of values, which is read as
none. `Found` is a field that the reader finds: the table has its position, and it stands
there.
-/

namespace HazelcastClient.Serialization.Portable

open Compact (Name intMax)

open ByteParser RandomAccess Layout List Compact Reader Parser

/-! ## Values -/

/-- The value that is read when `v` was written. -/
def Simple.asRead : (s : Simple) → s.Val → s.Val
  | .single _, v => v
  | .char16, v => v
  | .array _, some [] => none
  | .array _, v => v

def RawValues.asRead : (ss : List Simple) → RawValues ss → RawValues ss
  | [], _ => ()
  | s :: ss, (v, values) => (s.asRead v, asRead ss values)

theorem reads_ofInput {T : Type} {p : Compact.Input T} {bytes : List UInt8} {v : T}
    (h : Reads intMax p bytes v) : Reads intMax (ofInput p) bytes v := by
  intro data pos hat hlimit
  rw [ofInput, h data pos hat hlimit]
  rfl

section Values

variable {order : ByteOrder}

theorem reads_readChar16 (v : BitVec 16) :
    Reads intMax (readChar16 order) (order.bytes 2 v.toNat) v := by
  refine (reads_readNat (by have := v.isLt; omega)).bind_pure (BitVec.ofNat 16) ?_
  exact BitVec.ofNat_toNat 16 v

theorem setWidth_signExtend (v : BitVec 8) : (BitVec.signExtend 16 v).setWidth 8 = v := by
  ext i hi
  rw [BitVec.getElem_setWidth, BitVec.getLsbD_signExtend, if_pos hi,
    decide_eq_true (by omega : i < 16), Bool.true_and, BitVec.getLsbD_eq_getElem]

theorem reads_readItem (i : Item) (v : i.Val) :
    Reads intMax (readItem order i) (itemBytes order i v) v := by
  cases i with
  | primitive p => exact reads_readPrimitive p v
  | char =>
    refine (reads_readChar16 _).bind_pure (fun w => w.setWidth 8) ?_
    exact setWidth_signExtend v
  | string =>
    by_cases h : List.length v ≤ intMax
    · exact reads_readString v h
    · exact reads_of_large (by
        rw [itemBytes, length_append]
        omega)

theorem reads_readArray (i : Item) (v : Option (List i.Val)) :
    Reads intMax (readArray order i) (simpleBytes order (.array i) v)
      (Simple.asRead (.array i) v) := by
  have hend : ∀ len : Int32, len = -1 ∨ len = 0 →
      Reads intMax (readArray order i) (storeInt32 order len) none := by
    intro len hlen
    rw [← append_nil (storeInt32 order len)]
    refine (reads_readInt32 len).bind ?_
    rcases hlen with rfl | rfl
    · exact Reads.pure none
    · exact Reads.pure none
  cases v with
  | none => exact hend (-1) (.inl rfl)
  | some vs =>
    cases vs with
    | nil =>
      have h := hend (.ofNat 0) (.inr rfl)
      rwa [← append_nil (storeInt32 order (.ofNat 0))] at h
    | cons v vs =>
      by_cases hlarge : (v :: vs).length ≤ intMax
      · refine reads_length hlarge rfl fun len hlen => ?_
        have hne : len ≠ -1 := by
          rintro rfl
          exact not_neg_of_toInt hlen (by decide)
        have hpos : len ≠ 0 := by
          rintro rfl
          cases hlen
        rw [if_neg hne, if_neg hpos, if_neg (not_neg_of_toInt hlen), hlen,
          Int.toNat_natCast]
        exact (Reads.times fun w _ => reads_readItem i w).bind_pure some rfl
      · have hlen := length_le_flatMap order i (v :: vs)
        exact reads_of_large (by
          rw [simpleBytes, length_append]
          omega)

theorem reads_readSimple (s : Simple) (v : s.Val) :
    Reads intMax (readSimple order s) (simpleBytes order s v) (s.asRead v) := by
  cases s with
  | single i => exact reads_readItem i v
  | char16 => exact reads_readChar16 v
  | array i => exact reads_readArray i v

theorem reads_readRaw (ss : List Simple) (values : RawValues ss) :
    Reads intMax (readRaw order ss) (rawBytes order ss values)
      (RawValues.asRead ss values) := by
  induction ss with
  | nil => exact Reads.pure ()
  | cons s ss ih =>
    obtain ⟨v, values⟩ := values
    exact (reads_ofInput (reads_readSimple s v)).bind
      ((ih values).bind_pure (fun rest => (s.asRead v, rest)) rfl)

end Values

/-! ## Positions -/

theorem reads_readInt32 (order : ByteOrder) (v : Int32) :
    Reads intMax (readInt32 order) (storeInt32 order v) v :=
  reads_ofInput (Compact.reads_readInt32 v)

theorem reads_readBool (order : ByteOrder) (b : Bool) :
    Reads intMax (readBool order) [if b then 1 else 0] b := by
  have h : Reads intMax (readBool order) _ _ :=
    reads_ofInput (reads_readPrimitive .boolean b)
  cases b with
  | false | true => exact h

section Positions

variable {order : ByteOrder} {data : List UInt8} {pos : ℕ} {target : ℕ}

theorem seek_of_le {next : ℕ} (h : next ≤ data.length) : seek next data pos = .ok ((), next) := by
  have hneg : ¬ (next : ℤ) < 0 := Int.not_lt.mpr (Int.natCast_nonneg next)
  rw [seek, if_neg hneg, Int.toNat_natCast, if_neg (fun h' => absurd h (Nat.not_le.mpr h'.2))]

theorem storeInt32_ofNat {n : ℕ} (h : n ≤ intMax) :
    storeInt32 order (.ofNat n) = order.bytes 4 n := by
  rw [storeInt32, toUInt32_ofNat h]

theorem readInt32_at {v : Int32} (hat : At data pos (storeInt32 order v)) (hfits : pos + 4 ≤ intMax) :
    readInt32 order data pos = .ok (v, pos + 4) := by
  have hread := reads_readInt32 order v data pos hat
  rw [storeInt32_length] at hread
  exact hread hfits

theorem readInt32_position (hat : At data pos (order.bytes 4 target)) (hfits : pos + 4 ≤ intMax)
    (htarget : target ≤ intMax) :
    readInt32 order data pos = .ok (.ofNat target, pos + 4) := by
  rw [← storeInt32_ofNat htarget] at hat
  exact readInt32_at hat hfits

theorem seek_ofNat (htarget : target ≤ intMax) (hdata : target ≤ data.length) :
    seek (Int32.ofNat target).toInt data pos = .ok ((), target) := by
  rw [int32_ofNat_toInt htarget]
  exact seek_of_le hdata

theorem follow_of_at {index : ℕ} (hat : At data index (order.bytes 4 target))
    (hindex : index + 4 ≤ intMax) (htarget : target ≤ intMax) (hdata : target ≤ data.length) :
    follow order index data pos = .ok ((target : ℤ), target) := by
  have hseek : seek index data pos = .ok ((), index) := seek_of_le (by
    have := hat.bound
    omega)
  unfold follow
  rw [bind_of_ok hseek, bind_of_ok (readInt32_position hat hindex htarget),
    bind_of_ok (seek_ofNat htarget hdata), pure_apply,
    int32_ofNat_toInt htarget]

theorem reads_readInt16 {n : ℕ} (h : n ≤ 32767) :
    Reads intMax (readInt16 order) (order.bytes 2 n) n := by
  have hnat : (BitVec.ofNat 16 n).toNat = n := by
    rw [BitVec.toNat_ofNat]
    omega
  have hread : Reads intMax (ofInput (readChar16 order)) _ _ :=
    reads_ofInput (reads_readChar16 (BitVec.ofNat 16 n))
  rw [hnat] at hread
  refine hread.bind_pure BitVec.toInt ?_
  rw [BitVec.toInt_eq_toNat_of_lt (by rw [hnat]; omega), hnat]

end Positions

/-! ## Fields -/

section Fields

variable {order : ByteOrder} {Ty : Type} {cls : Ty → Class Ty} {R : Ty → Type} {format : Format R}
  {data : List UInt8} {pos : ℕ} {r : Reader} {i place : ℕ} {e : Entry R} {fd : FieldDefinition}
  {offset : ℕ} {name : Name} {s : Simple}

/-- The entry `i` of the table at `offset` leads to the field, which stands at `place`. -/
structure Found (order : ByteOrder) (cls : Ty → Class Ty) (format : Format R) (data : List UInt8)
    (offset i : ℕ) (e : Entry R) (place : ℕ) : Prop where
  slot : At data (offset + i * 4) (order.bytes 4 place)
  entry : At data place (entryBytes order cls format e place)
  behind : offset + i * 4 + 4 ≤ place
  fits : place + entrySize order format e ≤ intMax
  short : e.name.length ≤ 32767

/-- The definition of the reader leads to the entry `i` for the field. -/
structure Reader.Knows (r : Reader) (i : ℕ) (e : Entry R) (fd : FieldDefinition) : Prop where
  notRaw : r.raw = false
  find : r.cd.find e.name = some fd
  index : fd.index = i
  type : fd.type = e.kind.fieldType

section

variable (h : Found order cls format data offset i e place)

include h

theorem Found.payload :
    At data (place + (e.name.length + 3))
      (payloadBytes order cls format e.kind e.value (place + (e.name.length + 3))) := by
  have hat := h.entry
  rw [entryBytes] at hat
  have hright := hat.right
  rwa [fieldHeader_length] at hright

theorem Found.payload_fits :
    place + (e.name.length + 3) + payloadSize order format e.kind e.value ≤ intMax := by
  have hfits := h.fits
  rw [entrySize] at hfits
  omega

theorem Found.header :
    At data place (Writer.fieldHeader order e.name e.kind.fieldType) := h.entry.left

theorem Found.follow :
    follow order (offset + i * 4) data pos = .ok ((place : ℤ), place) := by
  have hbound := h.entry.bound
  have hfits := h.fits
  have hbehind := h.behind
  exact follow_of_at h.slot (by omega) (by omega) (by omega)

end

theorem setPosition_found (hknows : r.Knows i e fd)
    (h : Found order cls format data r.offset i e place) :
    r.setPosition order e.name e.kind.fieldType data pos =
      .ok ((), place + (e.name.length + 3)) := by
  have hsize : e.name.length + 3 ≤ entrySize order format e := Nat.le_add_right ..
  have hbound : place + entrySize order format e ≤ data.length := by
    have := h.entry.bound
    rwa [entryBytes_length] at this
  have hfits := h.fits
  have hfollow : follow order (r.offset + fd.index * 4) data pos =
      .ok ((place : ℤ), place) := by
    rw [hknows.index]
    exact h.follow
  have hlen : readInt16 order data place = .ok ((e.name.length : ℤ), place + 2) := by
    have hread := reads_readInt16 h.short data place h.header.left.left
    rw [ByteOrder.bytes_length] at hread
    exact hread (by omega)
  have hseek : seek ((place : ℤ) + 2 + (e.name.length : ℤ) + 1) data (place + 2) =
      .ok ((), place + (e.name.length + 3)) := by
    have hcast : (place : ℤ) + 2 + (e.name.length : ℤ) + 1 =
        ((place + (e.name.length + 3) : ℕ) : ℤ) := by
      push_cast
      ring
    rw [hcast]
    exact seek_of_le (by omega)
  unfold setPosition
  rw [hknows.notRaw, hknows.find]
  change (if fd.type ≠ e.kind.fieldType then _ else _ : Input Unit) data pos = _
  rw [if_neg (not_not.mpr hknows.type), bind_of_ok hfollow, bind_of_ok hlen, hseek]

theorem setPosition_missing {type : FieldType} (hraw : r.raw = false)
    (hfind : r.cd.find name = none) :
    r.setPosition order name type data pos = .error (.thrown (.missingField name)) := by
  unfold setPosition
  rw [hraw, hfind]
  rfl

section

variable {v : s.Val} (hknows : r.Knows i (⟨name, .simple s, v⟩ : Entry R) fd)
  (h : Found order cls format data r.offset i ⟨name, .simple s, v⟩ place)

include hknows h

theorem readBase_as {s' : Simple} {w : s'.Val} (htype : s'.fieldType = s.fieldType)
    (hreads : Reads intMax (readSimple order s') (simpleBytes order s v) w) :
    r.readBase order name s' data pos =
      .ok (w, place + entrySize order format ⟨name, .simple s, v⟩) := by
  have hset : r.setPosition order name s.fieldType data pos = .ok ((), place + (name.length + 3)) :=
    setPosition_found hknows h
  have hfits := h.fits
  have hread := reads_ofInput hreads data (place + (name.length + 3)) h.payload
  unfold readBase
  rw [entrySize, payloadSize] at *
  rw [htype, bind_of_ok hset, hread (by dsimp only at hfits; omega), Nat.add_assoc]

theorem readBase_found :
    r.readBase order name s data pos =
      .ok (s.asRead v, place + entrySize order format ⟨name, .simple s, v⟩) :=
  readBase_as hknows h rfl (reads_readSimple s v)

end

/-- A field with the type that is asked for needs no conversion. -/
theorem morph_fieldType (r : Reader) (name : Name) (s : Simple) :
    r.morph order s.fieldType name s = r.readBase order name s := by
  cases s with
  | single i =>
    cases i with
    | primitive p =>
      cases p with
      | boolean => rfl
      | numeric n => cases n <;> rfl
    | char | string => rfl
  | char16 | array i => rfl

theorem read_found {v : s.Val} (hknows : r.Knows i (⟨name, .simple s, v⟩ : Entry R) fd)
    (h : Found order cls format data r.offset i ⟨name, .simple s, v⟩ place) :
    r.read order name s data pos =
      .ok (s.asRead v, place + entrySize order format ⟨name, .simple s, v⟩) := by
  have htype : fd.type = s.fieldType := hknows.type
  unfold Reader.read
  split
  · exact readBase_found hknows h
  · rw [hknows.find]
    change r.morph order fd.type name s data pos = _
    rw [htype, morph_fieldType]
    exact readBase_found hknows h

end Fields

/-! ## Nested objects -/

section Nested

variable {order : ByteOrder} {Ty : Type} {cls : Ty → Class Ty} {R : Ty → Type} {format : Format R}
  {data : List UInt8} {pos : ℕ} {t : Ty}

theorem ids_at (hat : At data pos (Writer.ids order cls t)) (hfits : pos + 8 ≤ intMax) :
    readInt32 order data pos = .ok ((cls t).factoryId, pos + 4) ∧
      readInt32 order data (pos + 4) = .ok ((cls t).classId, pos + 8) := by
  have hright := At.right hat
  rw [storeInt32_length] at hright
  exact ⟨readInt32_at hat.left (by omega), readInt32_at hright (by omega)⟩

structure PortableAt (order : ByteOrder) (cls : Ty → Class Ty) (format : Format R)
    (data : List UInt8) (v : Option (R t)) (pos : ℕ) : Prop where
  flag : readBool order data pos = .ok (v.isNone, pos + 1)
  ids : At data (pos + 1) (Writer.ids order cls t)
  fits : pos + 9 ≤ intMax
  object : ∀ r, v = some r →
    At data (pos + 9) (format.bytes r (pos + 9)) ∧ pos + 9 + format.size r ≤ intMax

theorem portableAt {style : NullStyle} {v : Option (R t)}
    (hat : At data pos (payloadBytes order cls format (.portable t style) v pos))
    (hfits : pos + payloadSize order format (.portable t style) v ≤ intMax) :
    PortableAt order cls format data v pos := by
  have hflag : ∀ {b : Bool} {rest : List UInt8}, At data pos ((if b then 1 else 0) :: rest) →
      pos + 1 ≤ intMax → readBool order data pos = .ok (b, pos + 1) := by
    intro b rest hat hfits
    rw [← singleton_append] at hat
    exact reads_readBool order b data pos hat.left hfits
  cases v with
  | none =>
    rw [payloadSize] at hfits
    rw [payloadBytes] at hat
    have hids := hat
    rw [← singleton_append] at hids
    exact ⟨hflag (b := true) hat (by omega), hids.right, hfits, fun r hr => by cases hr⟩
  | some r =>
    rw [payloadSize] at hfits
    simp only [payloadBytes, append_assoc, cons_append] at hat
    have hrest := hat
    rw [← singleton_append] at hrest
    have hobject := hrest.right.right.left
    rw [length_singleton, ids_length] at hobject
    refine ⟨hflag (b := false) hat (by omega), hrest.right.left, by omega, fun r' hr => ?_⟩
    obtain rfl := Option.some.inj hr
    exact ⟨hobject, by omega⟩

def arrayLength (v : Option (List (R t))) : Int32 :=
  match v with
  | none => -1
  | some rs => .ofNat rs.length

structure ArrayAt (order : ByteOrder) (cls : Ty → Class Ty) (format : Format R)
    (data : List UInt8) (v : Option (List (R t))) (pos : ℕ) : Prop where
  length : readInt32 order data pos = .ok (arrayLength v, pos + 4)
  ids : At data (pos + 4) (Writer.ids order cls t)
  fits : pos + 12 ≤ intMax
  objects : ∀ rs, v = some rs → (Int32.ofNat rs.length).toInt = rs.length ∧
    At data (pos + 12) (tableBytes order format rs (pos + 12 + rs.length * 4)) ∧
    At data (pos + 12 + rs.length * 4) (elementBytes format rs (pos + 12 + rs.length * 4)) ∧
    pos + 12 + rs.length * 4 + total format.size rs ≤ intMax

theorem arrayAt {v : Option (List (R t))}
    (hat : At data pos (payloadBytes order cls format (.portableArray t) v pos))
    (hfits : pos + payloadSize order format (.portableArray t) v ≤ intMax) :
    ArrayAt order cls format data v pos := by
  have hlength : ∀ {len : Int32} {rest : List UInt8}, At data pos (storeInt32 order len ++ rest) →
      pos + 4 ≤ intMax → readInt32 order data pos = .ok (len, pos + 4) := by
    intro len rest hat hfits
    exact readInt32_at hat.left hfits
  cases v with
  | none =>
    rw [payloadSize] at hfits
    have hids := At.right hat
    rw [storeInt32_length] at hids
    exact ⟨hlength hat (by omega), hids, hfits, fun rs hrs => by cases hrs⟩
  | some rs =>
    rw [payloadSize] at hfits
    simp only [payloadBytes, append_assoc] at hat
    have hids := hat.right.left
    have htable := hat.right.right.left
    have hobjects := hat.right.right.right
    rw [storeInt32_length] at hids htable hobjects
    rw [ids_length] at htable hobjects
    rw [tableBytes_length] at hobjects
    refine ⟨hlength hat (by omega), hids, by omega, fun rs' hrs => ?_⟩
    obtain rfl := Option.some.inj hrs
    exact ⟨int32_ofNat_toInt (by omega), htable, hobjects, by omega⟩

end Nested

end HazelcastClient.Serialization.Portable
