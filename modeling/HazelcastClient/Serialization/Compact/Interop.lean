import Mathlib.Data.List.ReduceOption
import HazelcastClient.Serialization.Compact.RoundTrip

/-!
# Primitives and nullables

The methods of a reader for a primitive and for its nullable kind read the fields of both
kinds. Single values agree, and a vector of primitives is read as an array of nullables. An
array of nullables is read as a vector from its number of items on. This is right for
numbers, unless there are none. Booleans have a byte each in the array, and are read as if
they had a bit each.
-/

namespace HazelcastClient.Serialization.Compact

open ByteParser RandomAccess List Reader Parser

open Option (isSome)

section Spread

/-- The bit with the number `k` of booleans that have a byte each. -/
def spreadBit (bs : List Bool) (k : ℕ) : Bool := decide (k % 8 = 0) && bs.getD (k / 8) false

/-- Booleans with a byte each, when they are read as if they had a bit each. -/
def spread (bs : List Bool) : List Bool := (range bs.length).map (spreadBit bs)

theorem bitOf_toUInt8 (b : Bool) {k : ℕ} (hk : k < 8) : bitOf b.toUInt8 k = (decide (k = 0) && b) := by
  have hall : ∀ b : Bool, ∀ k < 8, bitOf b.toUInt8 k = (decide (k = 0) && b) := by decide
  exact hall b k hk

theorem spreadBit_of_lt (b : Bool) (bs : List Bool) {k : ℕ} (hk : k < 8) :
    spreadBit (b :: bs) k = (decide (k = 0) && b) := by
  rw [spreadBit, Nat.mod_eq_of_lt hk, Nat.div_eq_of_lt hk, getD_cons_zero]

theorem spreadBit_add (b : Bool) (bs : List Bool) (k : ℕ) :
    spreadBit (b :: bs) (8 + k) = spreadBit bs k := by
  rw [spreadBit, Nat.add_mod_left, Nat.add_div_left k (by decide), getD_cons_succ, spreadBit]

variable {data : List UInt8} {pos : ℕ} (bs : List Bool)

theorem readBits_spread (n : ℕ) {index : ℕ} (b : Bool) (bs : List Bool) (hindex : index ≤ 8)
    (hroom : index + n ≤ 8 * (bs.length + 1)) (hat : At data pos (bs.map Bool.toUInt8))
    (hlimit : pos + bs.length ≤ intMax) :
    ∃ next, readBits n index b.toUInt8 data pos =
      .ok ((range' index n).map (spreadBit (b :: bs)), next) := by
  induction n generalizing index b bs pos with
  | zero => exact ⟨pos, rfl⟩
  | succ n ih =>
    rw [readBits, range'_succ, map_cons]
    by_cases h8 : index = 8
    · subst h8
      cases bs with
      | nil =>
        rw [length_nil] at hroom
        omega
      | cons b' bs =>
        rw [length_cons] at hroom hlimit
        have hat' : At data pos ([b'.toUInt8] ++ bs.map Bool.toUInt8) := hat
        have hbyte : readByte data pos = .ok (b'.toUInt8, pos + 1) :=
          reads_readByte b'.toUInt8 data pos hat'.left (by rw [length_singleton]; omega)
        obtain ⟨next, hrest⟩ := ih b' bs (by decide : 1 ≤ 8) (by omega) hat'.right
          (by rw [length_singleton]; omega)
        rw [length_singleton] at hrest
        have hshift : (range' 9 n).map (spreadBit (b :: b' :: bs)) =
            (range' 1 n).map (spreadBit (b' :: bs)) := by
          have hrange : (range' 1 n).map (8 + ·) = range' 9 n :=
            map_add_range' 1 n 1
          rw [← hrange, map_map]
          exact map_congr_left fun k _ => spreadBit_add b (b' :: bs) k
        refine ⟨next, ?_⟩
        rw [if_pos rfl, bind_of_ok hbyte, bind_of_ok hrest, pure_apply,
          hshift, bitOf_toUInt8 b' (by decide)]
        rfl
    · obtain ⟨next, hrest⟩ := ih b bs (by omega : index + 1 ≤ 8) (by omega) hat hlimit
      refine ⟨next, ?_⟩
      rw [if_neg h8, bind_of_ok hrest, pure_apply, bitOf_toUInt8 b (by omega),
        spreadBit_of_lt b bs (by omega)]

theorem readBooleans_spread {order : ByteOrder}
    (hat : At data pos (storeInt32 order (.ofNat bs.length) ++ bs.map Bool.toUInt8))
    (hlimit : pos + 4 + bs.length ≤ intMax) :
    ∃ next, readBooleans order data pos = .ok (spread bs, next) := by
  have hcount : Reads intMax (readInt32 order) (storeInt32 order (.ofNat bs.length))
      (.ofNat bs.length) := reads_readInt32 _
  have hlen := hcount data pos hat.left (by rw [storeInt32_length]; omega)
  have hnat : (Int32.ofNat bs.length).toInt = bs.length := int32_ofNat_toInt (by omega)
  have hbytes := hat.right
  rw [storeInt32_length] at hlen hbytes
  cases bs with
  | nil => exact ⟨pos + 4, by rw [readBooleans, bind_of_ok hlen]; rfl⟩
  | cons b bs =>
    have hzero : Int32.ofNat (b :: bs).length ≠ 0 := by
      rw [Ne, ← Int32.toInt_inj, hnat, length_cons]
      change ¬ ((bs.length + 1 : ℕ) : ℤ) = 0
      omega
    rw [length_cons] at hlimit
    have hbytes' : At data (pos + 4) ([b.toUInt8] ++ bs.map Bool.toUInt8) := hbytes
    have hbyte : readByte data (pos + 4) = .ok (b.toUInt8, pos + 4 + 1) :=
      reads_readByte b.toUInt8 data _ hbytes'.left (by rw [length_singleton]; omega)
    obtain ⟨next, hrest⟩ := readBits_spread (bs.length + 1) b bs (Nat.zero_le 8) (by omega)
      hbytes'.right (by rw [length_singleton]; omega)
    refine ⟨next, ?_⟩
    rw [readBooleans, bind_of_ok hlen, if_neg hzero, if_neg (not_neg_of_toInt hnat),
      bind_of_ok hbyte, hnat, Int.toNat_natCast, spread, range_eq_range']
    exact hrest

theorem tail_false_iff : (∀ b ∈ bs.tail, b = false) ↔ ∀ i, bs.getD (i + 1) false = false := by
  cases bs with
  | nil => exact iff_of_true (fun b hb => by cases hb) fun i => rfl
  | cons a bs =>
    simp only [tail_cons, getD_cons_succ]
    constructor
    · intro h i
      by_cases hi : i < bs.length
      · rw [getD_eq_getElem _ _ hi]
        exact h _ (getElem_mem hi)
      · exact getD_eq_default _ _ (by omega)
    · intro h b hb
      obtain ⟨i, hi, rfl⟩ := getElem_of_mem hb
      rw [← h i, getD_eq_getElem _ _ hi]

theorem spread_getD {bs : List Bool} {i : ℕ} (hi : i < bs.length) :
    (spread bs).getD i false = spreadBit bs i := by
  rw [getD_eq_getElem _ _ (by rw [spread, length_map, length_range]; exact hi)]
  simp only [spread, getElem_map, getElem_range]

/-- Only the first of the booleans can be true if they are to be read. -/
theorem spread_eq_iff : spread bs = bs ↔ ∀ b ∈ bs.tail, b = false := by
  rw [tail_false_iff]
  have hspread (i : ℕ) (h : ∀ j < i, bs.getD (j + 1) false = false) :
      spreadBit bs (i + 1) = false := by
    rw [spreadBit]
    by_cases hmod : (i + 1) % 8 = 0
    · have hprevious := h ((i + 1) / 8 - 1) (by omega)
      rw [show (i + 1) / 8 - 1 + 1 = (i + 1) / 8 by omega] at hprevious
      rw [hprevious, Bool.and_false]
    · rw [decide_eq_false hmod, Bool.false_and]
  constructor
  · intro h i
    induction i using Nat.strong_induction_on with
    | _ i ih =>
      by_cases hi : i + 1 < bs.length
      · have hbit := spread_getD hi
        rw [h] at hbit
        rw [hbit, hspread i ih]
      · exact getD_eq_default _ _ (by omega)
  · intro h
    have hlength : (spread bs).length = bs.length := by
      rw [spread, length_map, length_range]
    refine ext_getElem hlength fun i hi hi' => ?_
    rw [← getD_eq_getElem _ false hi, ← getD_eq_getElem _ false hi', spread_getD hi']
    cases i with
    | zero => rfl
    | succ i => rw [h i, hspread i fun j _ => h j]

end Spread

section Bytes

variable {order : ByteOrder} {p : Primitive} {data : List UInt8} {pos : ℕ} {vs : List p.Val}

theorem Appends.unique {write : Output → Result Output} {bytes bytes' : List UInt8}
    (h : Appends write bytes) (h' : Appends write bytes') (hle : bytes.length ≤ intMax) :
    bytes = bytes' := by
  rcases h [] with hok | ⟨hlarge, -⟩
  · rcases h' [] with hok' | ⟨-, e, herr⟩
    · exact Except.ok.inj (hok.symm.trans hok')
    · rw [hok] at herr
      cases herr
  · rw [length_nil] at hlarge
    omega

def vectorAsItems (order : ByteOrder) :
    (p : Primitive) → List UInt8 → ℕ → Result (Option (List (Option p.Val)))
  | .boolean => fun data pos => do
    let values ← readBooleans order data pos
    .ok (some (values.1.map some))
  | .numeric n => fun data pos => do
    let itemCount ← readInt32 order data pos
    if itemCount.1 < 0 then .error .lengthError
    else do
      let values ← (readPrimitive order (.numeric n)).times itemCount.1.toInt.toNat data itemCount.2
      .ok (some (values.1.map some))

theorem readPrimitiveArrayAsNullableArray_eq (r : Reader) (d : FieldDescriptor) (p : Primitive) :
    r.readPrimitiveArrayAsNullableArray order d p =
      r.readVariableSize order d (vectorAsItems order p) := by
  cases p <;> rfl

theorem vectorAsItems_of_at {bytes : List UInt8} (hwrite : Appends (writeVector order p vs) bytes)
    (hat : At data pos bytes) (hlimit : pos + bytes.length ≤ intMax) :
    vectorAsItems order p data pos = .ok (some (vs.map some)) := by
  cases p with
  | boolean =>
    have hle : length vs ≤ intMax := by
      by_contra hlarge
      have herr : writeVector order .boolean vs [] = .error .undefined := by
        rw [writeVector, writeBooleans, toInt_of_lt (Nat.not_le.mp hlarge), error_bind]
      rcases hwrite [] with hok | ⟨hlong, -⟩
      · rw [herr] at hok
        cases hok
      · rw [length_nil] at hlong
        omega
    obtain rfl : bytes = booleanBytes order vs :=
      hwrite.unique (fun out => .inl (writeBooleans_eq vs hle out)) (by omega)
    rw [vectorAsItems]
    dsimp only
    rw [reads_readBooleans vs hle data pos hat hlimit, ok_bind]
  | numeric n =>
    obtain rfl : bytes = numberBytes order n vs :=
      hwrite.unique (appends_writeNumbers n vs) (by omega)
    have hle := le_size_mul n (length vs)
    have hlength : (numberBytes order n vs).length = 4 + n.size * length vs :=
      numberBytes_length n vs
    have hcount : Reads intMax (readInt32 order) (storeInt32 order (.ofNat (length vs)))
        (.ofNat (length vs)) := reads_readInt32 _
    have hfirst := hcount data pos hat.left (by rw [storeInt32_length]; omega)
    have hnat : (Int32.ofNat (length vs)).toInt = length vs :=
      int32_ofNat_toInt (by omega)
    have hvalues : Reads intMax ((readPrimitive order (.numeric n)).times (length vs))
        (flatMap (primitiveBytes order (.numeric n)) vs) vs :=
      Reads.times fun v _ => reads_readPrimitive _ v
    have hrest := hvalues data _ hat.right (by
      rw [numberBytes, length_append] at hlimit
      omega)
    rw [vectorAsItems]
    dsimp only
    rw [hfirst, ok_bind]
    dsimp only
    rw [if_neg (not_neg_of_toInt hnat), hnat, Int.toNat_natCast, hrest, ok_bind]

theorem checkItems_eq {T : Type} {enc : T → List UInt8} {vs : List (Option T)} {index : ℕ}
    {head : ArrayHead} (e : Error) (hoffsets : ∀ i o, (itemOffsets enc pos vs)[i]? = some o →
      getOffset order (offsetWidth head.dataLength) data head.offsetsPosition (index + i) = .ok o) :
    checkItems order data head e vs.length index =
      if vs.all isSome then .ok () else .error (.thrown e) := by
  induction vs generalizing pos index with
  | nil => rfl
  | cons v vs ih =>
    rw [length_cons, checkItems]
    cases v with
    | none =>
      have hfirst := hoffsets 0 (-1) rfl
      rw [Nat.add_zero] at hfirst
      rw [hfirst, ok_bind, if_pos rfl]
      rfl
    | some v =>
      have hfirst := hoffsets 0 pos rfl
      have htail : ∀ i o, (itemOffsets enc (pos + (enc v).length) vs)[i]? = some o →
          getOffset order (offsetWidth head.dataLength) data head.offsetsPosition
            (index + 1 + i) = .ok o := by
        intro i o hi
        rw [Nat.add_assoc, Nat.add_comm 1 i]
        exact hoffsets (i + 1) o hi
      have hrest := ih htail
      rw [Nat.add_zero] at hfirst
      rw [hfirst, ok_bind, if_neg (by omega), hrest]
      rfl

/-- What is read of the items of an array as a vector. -/
def unpacked : (p : Primitive) → List p.Val → Option (List p.Val)
  | .boolean, vs => some (spread vs)
  | .numeric _, vs => if vs = [] then none else some vs

/-- The items of an array can be read as a vector: there are numbers, or no boolean but
the first is true. -/
def ReadsAsVector : (p : Primitive) → List p.Val → Prop
  | .boolean, vs => ∀ b ∈ tail vs, b = false
  | .numeric _, vs => vs ≠ []

theorem unpacked_eq_iff (p : Primitive) (vs : List p.Val) :
    unpacked p vs = some vs ↔ ReadsAsVector p vs := by
  cases p with
  | boolean => rw [unpacked, Option.some.injEq, spread_eq_iff, ReadsAsVector]
  | numeric n =>
    rw [unpacked, ReadsAsVector]
    split
    · rename_i hnil
      exact iff_of_false (by rintro ⟨⟩) fun h => h hnil
    · rename_i hne
      exact iff_of_true rfl hne

theorem vector_of_items
    (hat : At data pos (storeInt32 order (.ofNat vs.length) ++ vs.flatMap (primitiveBytes order p)))
    (hlimit : pos + 4 + p.size * vs.length ≤ intMax) :
    vector order p data pos = .ok (unpacked p vs) := by
  cases p with
  | boolean =>
    have hflat : flatMap (primitiveBytes order .boolean) vs = map Bool.toUInt8 vs :=
      flatMap_pure_eq_map Bool.toUInt8 vs
    rw [hflat] at hat
    rw [Primitive.size, Nat.one_mul] at hlimit
    obtain ⟨next, hread⟩ := readBooleans_spread vs hat hlimit
    have hvector : readVector order .boolean data pos = .ok (some (spread vs), next) :=
      bind_of_ok hread
    rw [vector, hvector, ok_bind]
    rfl
  | numeric n =>
    have hle := le_size_mul n (length vs)
    have hlength : (numberBytes order n vs).length = 4 + n.size * length vs :=
      numberBytes_length n vs
    rw [Primitive.size] at hlimit
    have hread : Reads intMax (readVector order (.numeric n)) (numberBytes order n vs)
        (unpacked (.numeric n) vs) := reads_readNumbers n vs (by omega)
    exact gets_vector hread data pos hat (by omega)

/-- An array of nullables, as `read_nullable_array_as_primitive_array` reads it. -/
def itemsAsVector (order : ByteOrder) (name : Name) (p : Primitive) (data : List UInt8) (pos : ℕ) :
    Result (Option (List p.Val)) := do
  let head ← readArrayHead order data pos
  checkItems order data head (.unexpectedNullValueInArray name p.suffix) head.itemCount.toNat 0
  vector order p data (head.dataStartPos - 4)

theorem itemsData_eq_reduceOption {T : Type} (enc : T → List UInt8) (vs : List (Option T)) :
    itemsData enc vs = vs.reduceOption.flatMap enc := by
  induction vs with
  | nil => rfl
  | cons v vs ih =>
    cases v with
    | none => rw [itemsData_none, ih, reduceOption_cons_of_none]
    | some v => rw [itemsData_some, ih, reduceOption_cons_of_some, flatMap_cons]

theorem itemsAsVector_of_at (name : Name) {vs : List (Option p.Val)}
    (hat : At data pos (arrayBytes order (primitiveBytes order p) vs))
    (hlimit : pos + (arrayBytes order (primitiveBytes order p) vs).length ≤ intMax) :
    itemsAsVector order name p data pos =
      if vs.all isSome then .ok (unpacked p vs.reduceOption)
      else .error (.thrown (.unexpectedNullValueInArray name p.suffix)) := by
  obtain ⟨hhead, hoffsets⟩ := array_head hat hlimit
  have hcheck : checkItems order data
      ⟨(itemsData (primitiveBytes order p) vs).length, vs.length, pos + 8⟩
      (.unexpectedNullValueInArray name p.suffix) vs.length 0 =
        if vs.all isSome then .ok ()
        else .error (.thrown (.unexpectedNullValueInArray name p.suffix)) :=
    checkItems_eq _ hoffsets
  rw [itemsAsVector, hhead, ok_bind]
  dsimp only
  rw [Int.toNat_natCast, hcheck]
  by_cases hall : vs.all isSome
  · have hcount : vs.reduceOption.length = vs.length :=
      reduceOption_length_eq_iff.mpr (all_eq_true.mp hall)
    rw [if_pos hall, if_pos hall, ok_bind]
    refine vector_of_items ?_ ?_
    · rw [hcount, ← itemsData_eq_reduceOption]
      rw [arrayBytes, append_assoc, append_assoc] at hat
      have h := hat.right
      rw [storeInt32_length, ← append_assoc] at h
      exact h.left
    · rw [arrayBytes_length, itemsData_eq_reduceOption, flatMap_primitiveBytes_length] at hlimit
      omega
  · rw [if_neg hall, if_neg hall, error_bind]

end Bytes

section Methods

variable {R : Type} {order : ByteOrder} {c : Codec R} {σ : R → ℕ} {S : R → Prop} {schema : Schema}
  {b : Body} {reader : Reader} {d : FieldDescriptor} {name : Name} {p : Primitive} {index : ℕ}
  {payload : Option (List UInt8)}

def asValue (name : Name) (p : Primitive) : Option p.Val → Result p.Val
  | none => .error (.thrown (.unexpectedNullValue name p.suffix))
  | some v => .ok v

def asVector (name : Name) (p : Primitive) :
    Option (List (Option p.Val)) → Result (Option (List p.Val))
  | none => .ok none
  | some vs =>
    if vs.all isSome then .ok (some vs.reduceOption)
    else .error (.thrown (.unexpectedNullValueInArray name p.suffix))

def Entry.Interoperates (order : ByteOrder) (reader : Reader) : Entry R → Prop
  | ⟨name, .primitive p, value⟩ => reader.readNullablePrimitive order name p = .ok (some value)
  | ⟨name, .arrayOf p, value⟩ =>
    reader.readArrayOfNullable order name p = .ok (Option.map (map some) value)
  | ⟨name, .nullable (.primitive p), value⟩ =>
    reader.readPrimitiveField order name p = asValue name p value
  | ⟨name, .arrayOfNullable (.primitive p), value⟩ =>
    reader.readArrayOfPrimitive order name p = asVector name p value
  | _ => True

def Entry.Throws (order : ByteOrder) (reader : Reader) : Entry R → Prop
  | ⟨name, .nullable (.primitive p), _⟩ =>
    reader.readPrimitiveField order name p =
      .error (.thrown (.unexpectedNullValue name p.suffix))
  | ⟨name, .arrayOfNullable (.primitive p), _⟩ =>
    reader.readArrayOfPrimitive order name p =
      .error (.thrown (.unexpectedNullValueInArray name p.suffix))
  | _ => False

def Entry.HasNull : Entry R → Prop
  | ⟨_, .nullable (.primitive _), value⟩ => value = none
  | ⟨_, .arrayOfNullable (.primitive _), value⟩ => ∃ vs, value = some vs ∧ none ∈ vs
  | _ => False

def Entry.Interoperable : Entry R → Prop
  | ⟨_, .arrayOfNullable (.primitive p), value⟩ =>
    ∀ vs, value = some (map some vs) → ReadsAsVector p vs
  | _ => True

theorem all_isSome_iff {T : Type} (vs : List (Option T)) : vs.all isSome ↔ none ∉ vs := by
  rw [all_eq_true]
  constructor
  · intro h hmem
    cases h none hmem
  · intro h v hv
    cases v with
    | none => exact absurd hv h
    | some v => rfl

theorem map_some_eq_iff {T : Type} {vs : List (Option T)} (hall : vs.all isSome)
    (ws : List T) : vs = ws.map some ↔ ws = vs.reduceOption := by
  have hself : ∀ ws : List T, (ws.map some).reduceOption = ws := fun ws => by
    rw [reduceOption, filterMap_map]
    exact filterMap_some
  have hback : vs.reduceOption.map some = vs := by
    induction vs with
    | nil => rfl
    | cons v vs ih =>
      rw [all_cons, Bool.and_eq_true] at hall
      obtain ⟨v, rfl⟩ := Option.isSome_iff_exists.mp hall.1
      rw [reduceOption_cons_of_some, map_cons, ih hall.2]
  constructor
  · rintro rfl
    exact (hself ws).symm
  · rintro rfl
    exact hback.symm

section

variable (hr : reader.Views order schema b) {value : Option (List (Option p.Val))}

include hr

section

variable (hd : schema.getField name = some d) (hkind : d.kind = .arrayOfNullable (.primitive p))
  (hindex : d.index = index)
  (h : Payload (writeArray order (writeItem order c (.primitive p)))
    (items order (readItem order c (.primitive p))) (arraySize (Item.size σ (.primitive p)))
    (fun vs => ∀ v, some v ∈ vs → Item.Survives S (.primitive p) v) value payload)
  (hholds : b.Holds (.entry index payload))

include hd hkind hindex h hholds

theorem readArrayOfPrimitive_eq :
    reader.readArrayOfPrimitive order name p =
      match value with
      | none => .ok none
      | some vs =>
        if vs.all isSome then .ok (unpacked p vs.reduceOption)
        else .error (.thrown (.unexpectedNullValueInArray name p.suffix)) := by
  have hget : reader.getFieldDescriptor name = .ok d := by
    rw [getFieldDescriptor, hr.schema_eq, hd]
  have hmethod : reader.readArrayOfPrimitive order name p =
      reader.readVariableSize order d (itemsAsVector order name p) := by
    have hne : d.kind ≠ .arrayOf p := by simp [hkind]
    rw [readArrayOfPrimitive, hget, ok_bind, if_neg hne, if_pos hkind]
    rfl
  rw [hmethod]
  cases h with
  | absent => exact readVariableSize_absent hr hindex hholds _
  | present hsize hwrite hread hlost =>
    rename_i vs bytes
    obtain ⟨pos, hat, hlimit, heq⟩ := readVariableSize_present hr hindex hholds
    obtain rfl : bytes = arrayBytes order (primitiveBytes order p) vs :=
      hwrite.unique (appends_writeArray fun v _ => appends_append _) (by omega)
    rw [heq]
    exact itemsAsVector_of_at name hat hlimit

theorem interoperates_items :
    (reader.readArrayOfPrimitive order name p = asVector name p value ↔
        ∀ vs, value = some (map some vs) → ReadsAsVector p vs) ∧
      (reader.readArrayOfPrimitive order name p =
          .error (.thrown (.unexpectedNullValueInArray name p.suffix)) ↔
        ∃ vs, value = some vs ∧ none ∈ vs) := by
  rw [readArrayOfPrimitive_eq hr hd hkind hindex h hholds]
  cases value with
  | none =>
    refine ⟨iff_of_true rfl fun vs hvs => ?_, iff_of_false (by rintro ⟨⟩) ?_⟩
    · cases hvs
    · rintro ⟨vs, hvs, -⟩
      cases hvs
  | some vs =>
    dsimp only [asVector]
    by_cases hall : vs.all isSome
    · rw [if_pos hall, if_pos hall, Except.ok.injEq, unpacked_eq_iff]
      constructor
      · constructor
        · intro hreads ws hws
          rwa [(map_some_eq_iff hall ws).mp (Option.some.inj hws)]
        · intro hreads
          exact hreads _ (congrArg some ((map_some_eq_iff hall _).mpr rfl))
      · refine iff_of_false (by rintro ⟨⟩) ?_
        rintro ⟨ws, hws, hnull⟩
        obtain rfl := Option.some.inj hws
        exact (all_isSome_iff vs).mp hall hnull
    · have hnull : none ∈ vs := not_not.mp (mt (all_isSome_iff vs).mpr hall)
      rw [if_neg hall, if_neg hall]
      refine ⟨iff_of_true rfl fun ws hws => ?_, iff_of_true rfl ⟨vs, rfl, hnull⟩⟩
      rw [Option.some.inj hws] at hnull
      obtain ⟨w, -, hw⟩ := mem_map.mp hnull
      cases hw

end

/-- What the methods for the other kind get from a body that holds the field. -/
theorem interoperates_of_holds {e : Entry R} (hd : schema.getField e.name = some d)
    (hkind : d.kind = e.kind) {piece : Piece} (hputs : e.Puts order c σ S d piece)
    (hholds : b.Holds piece) :
    (e.Interoperates order reader ↔ e.Interoperable) ∧ (e.Throws order reader ↔ e.HasNull) := by
  have hget : reader.getFieldDescriptor e.name = .ok d := by
    rw [getFieldDescriptor, hr.schema_eq, hd]
  cases hputs with
  | boolean hoffset hbit =>
    have hfixed := readFixed_boolean hr hoffset hbit hholds
    refine ⟨iff_of_true ?_ trivial, Iff.rfl⟩
    rw [Entry.Interoperates, readNullablePrimitive, hget, ok_bind, if_pos hkind, hfixed,
      ok_bind]
  | number hoffset =>
    have hfixed := readFixed_number hr hoffset hholds
    refine ⟨iff_of_true ?_ trivial, Iff.rfl⟩
    rw [Entry.Interoperates, readNullablePrimitive, hget, ok_bind, if_pos hkind, hfixed,
      ok_bind]
  | vector hindex h =>
    refine ⟨iff_of_true ?_ trivial, Iff.rfl⟩
    rw [Entry.Interoperates, readArrayOfNullable, hget, ok_bind, if_pos hkind,
      readPrimitiveArrayAsNullableArray_eq]
    cases h with
    | absent => exact readVariableSize_absent hr hindex hholds _
    | present hsize hwrite hread hlost =>
      obtain ⟨pos, hat, hlimit, heq⟩ := readVariableSize_present hr hindex hholds
      rw [heq]
      exact vectorAsItems_of_at hwrite hat hlimit
  | item hindex h =>
    rename_i name i value index payload
    cases i with
    | primitive p =>
      have hne : d.kind ≠ .primitive p := by simp [hkind]
      have hread : reader.readVariableSize order d (present (readPrimitive order p)) =
          .ok value :=
        (readVariableSize_iff hr hindex hholds h).mpr fun v _ => trivial
      have hmethod : reader.readPrimitiveField order name p = asValue name p value := by
        rw [readPrimitiveField, hget, ok_bind, if_neg hne, if_pos hkind, hread, ok_bind]
        cases value <;> rfl
      refine ⟨iff_of_true hmethod trivial, ?_⟩
      rw [Entry.Throws, hmethod, Entry.HasNull]
      cases value with
      | none => exact iff_of_true rfl rfl
      | some v => exact iff_of_false (by rintro ⟨⟩) (by rintro ⟨⟩)
    | _ => exact ⟨Iff.rfl, Iff.rfl⟩
  | items hindex h =>
    rename_i name i value index payload
    cases i with
    | primitive p => exact interoperates_items hr hd hkind hindex h hholds
    | _ => exact ⟨Iff.rfl, Iff.rfl⟩

end

end Methods

section Records

variable {order : ByteOrder} {R : Type} {c : Codec R} {σ : R → ℕ} {S : R → Prop}

theorem exists_views (hc : ∀ r, ItemLaw (c.write r) c.read r (σ r) (S r)) {r : Record R}
    {es : List (Entry R)} (hperm : es.Perm r.entries) {out data : Output}
    (hwrite : writeRecord order c r.type.schema es out = .ok data) {reader : Reader}
    (hreader : new order r.type.schema data out.length = .ok reader) :
    ∃ b, r.Fills order c σ S es b ∧ reader.Views order r.type.schema b := by
  rcases fills_or order hc r hperm with ⟨⟨b, h⟩, -⟩ | ⟨hfail, -⟩
  · refine ⟨b, h, ?_⟩
    rcases h.appends out with hok | ⟨-, e, herr⟩
    · obtain rfl : data = out ++ b.bytes order := Except.ok.inj (hwrite.symm.trans hok)
      have hat : At (out ++ b.bytes order) out.length (b.bytes order) := At.self _ _
      by_cases hfits : out.length + (b.bytes order).length ≤ intMax
      · obtain ⟨reader', hnew, hviews, -⟩ := new_views hat hfits h.fixed h.count
        obtain rfl : reader = reader' := Except.ok.inj (hreader.symm.trans hnew)
        exact hviews
      · obtain ⟨e, herr⟩ := new_error hat (fun hvariable => h.fits hvariable _ _ hok)
          (Nat.not_le.mp hfits) h.fixed h.count
        rw [herr] at hreader
        cases hreader
    · rw [hwrite] at herr
      cases herr
  · obtain ⟨e, herr⟩ := hfail out
    rw [hwrite] at herr
    cases herr

end Records

/-- A field of a written record is read by the method for the other kind as it should be,
exactly when it is not an array without nulls that cannot be read as a vector. The method
for primitives throws exactly when there is a null. -/
theorem interoperates_iff (order : ByteOrder) (service : SchemaService) (n : ℕ)
    (r : Record (Nested n)) (es : List (Entry (Nested n))) (hperm : es.Perm r.entries)
    (out data : Output)
    (hwrite : writeRecord order (nestedCodec order service n) r.type.schema es out = .ok data)
    (reader : Reader) (hreader : new order r.type.schema data out.length = .ok reader)
    (e : Entry (Nested n)) (he : e ∈ r.entries) :
    (e.Interoperates order reader ↔ e.Interoperable) ∧ (e.Throws order reader ↔ e.HasNull) := by
  obtain ⟨b, h, hr⟩ := exists_views (nestedLaw order service n) hperm hwrite hreader
  obtain ⟨piece, ⟨d, hd, hkind, hputs⟩, hholds⟩ := h.holds e he
  exact interoperates_of_holds hr hd hkind hputs hholds

def nullablesType : BuiltSchema where
  fields := ⟨[([97], .arrayOfNullable (.primitive .boolean))], nodup_singleton _⟩
  schema :=
    { typeName := []
      fields := [([97], { kind := .arrayOfNullable (.primitive .boolean), index := 0 })]
      fixedSizeFieldsLength := 0
      numberOfVarSizeFields := 1
      schemaId := fingerprint [] [([97], { kind := .arrayOfNullable (.primitive .boolean) })] }
  built := rfl

def nullablesRecord (value : Option (List (Option Bool))) : Record (Nested 0) :=
  ⟨nullablesType, (value, ())⟩

/-- Two booleans that are true are read as one that is true and one that is not. -/
theorem read_two_booleans :
    (do
      let data ← writeRecord .little (nestedCodec .little (fun _ => none) 0) nullablesType.schema
        (nullablesRecord (some [some true, some true])).entries []
      let reader ← new .little nullablesType.schema data 0
      reader.readArrayOfPrimitive .little [97] .boolean) = .ok (some [true, false]) := by
  decide +kernel

def booleanReader : Reader where
  schema := nullablesType.schema
  data := [12, 0, 0, 0, 2, 0, 0, 0, 2, 0, 0, 0, 1, 0, 0, 1, 0]
  position := 17
  dataStartPosition := 4
  variableOffsetsPosition := 16
  width := 1

theorem interoperates_true_false :
    Entry.Interoperates .little booleanReader (⟨[97], .arrayOfNullable (.primitive .boolean),
      some [some true, some false]⟩ : Entry (Nested 0)) := by
  refine (interoperates_iff .little (fun _ => none) 0
    (nullablesRecord (some [some true, some false])) _ (List.Perm.refl _) [] booleanReader.data
    (by decide +kernel) booleanReader (by decide +kernel) _ (mem_singleton.mpr rfl)).1.mpr ?_
  intro vs hvs
  obtain rfl : [true, false] = vs :=
    map_injective_iff.mpr (Option.some_injective _) (Option.some.inj hvs)
  intro b hb
  simpa using hb

end HazelcastClient.Serialization.Compact
