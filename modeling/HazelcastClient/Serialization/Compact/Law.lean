import HazelcastClient.Serialization.Compact.Reader

/-!
# Values on a stream

What the methods for single values write and read. `Appends write bytes` says that a
method puts `bytes` at the end of the output, or fails because the output gets too large
for an `int`. An `ItemLaw` describes a value on its way through a stream: how many bytes it
takes, and whether it survives.
-/

namespace HazelcastClient.Serialization.Compact

open ByteParser RandomAccess List BigDecimal

/-- The method appends the bytes, unless the output gets too large. -/
def Appends (write : Output → Result Output) (bytes : List UInt8) : Prop :=
  ∀ out, write out = .ok (out ++ bytes) ∨
    intMax < out.length + bytes.length ∧ ∃ e, write out = .error e

/-- What happens to the value `v` of a method that writes it and one that reads it. -/
inductive ItemLaw {T : Type} (write : Output → Result Output) (read : Input T) (v : T) (size : ℕ)
    (survives : Prop) : Prop
  | unwritable (hwrite : ∀ out, ∃ e, write out = .error e) (hlost : ¬ survives)
  | written (bytes : List UInt8) (hsize : bytes.length = size) (hwrite : Appends write bytes)
      (hread : survives → Reads intMax read bytes v)
      (hlost : ¬ survives → Misses intMax read bytes v)

/-- The method gets `u` from the bytes. -/
def Gets {U : Type} (read : List UInt8 → ℕ → Result U) (bytes : List UInt8) (u : U) : Prop :=
  ∀ data pos, At data pos bytes → pos + bytes.length ≤ intMax → read data pos = .ok u

/-- The method does not get `u` from the bytes. -/
def Never {U : Type} (read : List UInt8 → ℕ → Result U) (bytes : List UInt8) (u : U) : Prop :=
  ∀ data pos, At data pos bytes → pos + bytes.length ≤ intMax → read data pos ≠ .ok u

/-- What happens to the value `u` of a field of variable size. -/
inductive FieldLaw {U : Type} (write : Output → Result Output)
    (read : List UInt8 → ℕ → Result U) (u : U) (size : ℕ) (survives : Prop) : Prop
  | unwritable (hwrite : ∀ out, ∃ e, write out = .error e) (hlost : ¬ survives)
  | written (bytes : List UInt8) (hsize : bytes.length = size) (hwrite : Appends write bytes)
      (hread : survives → Gets read bytes u) (hlost : ¬ survives → Never read bytes u)

def Primitive.size : Primitive → ℕ
  | .boolean => 1
  | .numeric n => n.size

/-- The bytes of a single value, where `σ` gives those of a record. -/
def Item.size {R : Type} (σ : R → ℕ) : (i : Item) → i.Val R → ℕ
  | .primitive p, _ => p.size
  | .string, v => 4 + List.length v
  | .decimal, v => 4 + (toBytes (unscaled v)).length + 4
  | .time, _ => 7
  | .date, _ => 6
  | .timestamp, _ => 13
  | .timestampWithTimezone, _ => 17
  | .compact, r => σ r

/-- A single value comes back, unless it is a decimal whose sign is lost, or a record that
does not. -/
def Item.Survives {R : Type} (S : R → Prop) : (i : Item) → i.Val R → Prop
  | .decimal, v => ¬ LosesSign (unscaled v)
  | .compact, r => S r
  | _, _ => True

section Basic

variable {order : ByteOrder} (bytes : List UInt8) {n : ℕ} (p : Primitive)

theorem appends_append : Appends (fun out => .ok (out ++ bytes)) bytes :=
  fun _ => .inl rfl

theorem toInt_of_le (h : n ≤ intMax) : toInt n = .ok n := if_pos h

theorem toInt_of_lt (h : intMax < n) : toInt n = .error .undefined :=
  if_neg (Nat.not_le.mpr h)

theorem toSize_natCast (n : ℕ) : toSize (n : ℤ) = n := by
  rw [toSize, if_pos (Int.natCast_nonneg n), Int.toNat_natCast]

theorem int32_ofNat_toInt (h : n ≤ intMax) : (Int32.ofNat n).toInt = n :=
  Int32.toInt_ofNat_of_lt (by unfold intMax at h; omega)

theorem appends_writeBytes :
    Appends (writeBytes order bytes) (storeInt32 order (.ofNat bytes.length) ++ bytes) := by
  intro out
  rw [writeBytes]
  by_cases h : bytes.length ≤ intMax
  · left
    rw [toInt_of_le h]
    exact congrArg Except.ok (append_assoc _ _ _)
  · right
    rw [toInt_of_lt (by omega)]
    refine ⟨?_, _, rfl⟩
    rw [length_append]
    omega

theorem reads_readBytes : Reads intMax (readBytes bytes.length) bytes bytes := by
  intro data pos hat hlimit
  rw [readBytes, if_pos hat.bound, if_pos hlimit, hat.slice]

theorem reads_readByte (b : UInt8) : Reads intMax readByte [b] b :=
  (reads_readBytes [b]).bind_pure (fun bytes => bytes.headD 0) rfl

theorem reads_readNat {width n : ℕ} (h : n < 256 ^ width) :
    Reads intMax (readNat order width) (order.bytes width n) n := by
  have hbytes := reads_readBytes (order.bytes width n)
  rw [order.bytes_length] at hbytes
  exact hbytes.bind_pure order.nat (order.nat_bytes width n h)

theorem reads_readInt32 (v : Int32) : Reads intMax (readInt32 order) (storeInt32 order v) v := by
  have hbytes := reads_readBytes (storeInt32 order v)
  rw [storeInt32_length] at hbytes
  exact hbytes.bind_pure (loadInt32 order) (loadInt32_storeInt32 order v)

theorem reads_readPrimitive (v : p.Val) :
    Reads intMax (readPrimitive order p) (primitiveBytes order p v) v := by
  cases p with
  | boolean =>
    refine (reads_readByte _).bind_pure (fun b => b != 0) ?_
    cases v <;> rfl
  | numeric n =>
    have hlt : BitVec.toNat v < 256 ^ n.size := by
      have h := BitVec.isLt v
      rwa [pow_mul] at h
    have hback : ∀ w : BitVec (8 * n.size), BitVec.ofNat (8 * n.size) w.toNat = w := fun w => by
      rw [BitVec.ofNat_toNat, BitVec.setWidth_eq]
    exact (reads_readNat hlt).bind_pure (BitVec.ofNat (8 * n.size)) (hback v)

theorem primitiveBytes_length (v : p.Val) : (primitiveBytes order p v).length = p.size := by
  cases p with
  | boolean => rfl
  | numeric n => exact order.bytes_length _ _

@[simp] theorem timeBytes_length (v : LocalTime) : (timeBytes order v).length = 7 := by
  simp [timeBytes]

@[simp] theorem dateBytes_length (v : LocalDate) : (dateBytes order v).length = 6 := by
  simp [dateBytes]

@[simp] theorem timestampBytes_length (v : LocalDateTime) :
    (timestampBytes order v).length = 13 := by
  simp [timestampBytes]

@[simp] theorem timestampWithTimezoneBytes_length (v : OffsetDateTime) :
    (timestampWithTimezoneBytes order v).length = 17 := by
  simp [timestampWithTimezoneBytes]

theorem reads_readTime (v : LocalTime) : Reads intMax (readTime order) (timeBytes order v) v :=
  (reads_readByte v.hours).bind <| (reads_readByte v.minutes).bind <|
    (reads_readByte v.seconds).bind <| (reads_readInt32 v.nanos).bind_pure
      (fun nano => LocalTime.mk v.hours v.minutes v.seconds nano) rfl

theorem reads_readDate (v : LocalDate) : Reads intMax (readDate order) (dateBytes order v) v :=
  (reads_readInt32 v.year).bind <| (reads_readByte v.month).bind <|
    (reads_readByte v.dayOfMonth).bind_pure (fun day => LocalDate.mk v.year v.month day) rfl

theorem reads_readTimestamp (v : LocalDateTime) :
    Reads intMax (readTimestamp order) (timestampBytes order v) v :=
  (reads_readDate v.date).bind <| (reads_readTime v.time).bind_pure
    (fun time => LocalDateTime.mk v.date time) rfl

theorem reads_readTimestampWithTimezone (v : OffsetDateTime) :
    Reads intMax (readTimestampWithTimezone order) (timestampWithTimezoneBytes order v) v :=
  (reads_readTimestamp v.dateTime).bind <| (reads_readInt32 v.zoneOffsetInSeconds).bind_pure
    (fun zone => OffsetDateTime.mk v.dateTime zone) rfl

theorem reads_length {T : Type} {bytes bytes' : List UInt8} {f : Int32 → Input T} {v : T}
    (hn : n ≤ intMax) (hbytes : bytes = storeInt32 order (.ofNat n) ++ bytes')
    (hf : ∀ len : Int32, len.toInt = n → Reads intMax (f len) bytes' v) :
    Reads intMax (readInt32 order >>= f) bytes v := by
  rw [hbytes]
  exact (reads_readInt32 _).bind (hf _ (int32_ofNat_toInt hn))

theorem not_neg_of_toInt {len : Int32} (h : len.toInt = n) : ¬ len < 0 := by
  rw [Int32.lt_iff_toInt_lt, h, show (0 : Int32).toInt = 0 from rfl]
  omega

theorem reads_readString (s : List UInt8) (h : s.length ≤ intMax) :
    Reads intMax (readString order) (storeInt32 order (.ofNat s.length) ++ s) s := by
  refine reads_length h rfl fun len hlen => ?_
  have hne : len ≠ -1 := by
    rintro rfl
    exact not_neg_of_toInt hlen (by decide)
  rw [if_neg hne, hlen]
  rw [toSize_natCast]
  exact reads_readBytes s

theorem reads_readBigInteger (i : ℤ) (h : (toBytes i).length ≤ intMax) :
    Reads intMax (readBigInteger order)
      (storeInt32 order (.ofNat (digits (toBytes i)).length) ++ digits (toBytes i))
      (fromBytes (toBytes i)) := by
  rw [digits_length]
  refine reads_length h rfl fun len hlen => ?_
  rw [if_neg (not_neg_of_toInt hlen), hlen, Int.toNat_natCast, ← digits_length]
  refine (reads_readBytes _).bind_pure (fun bytes => fromBytes (bytes.map UInt8.toInt8)) ?_
  rw [digits, map_map]
  exact congrArg fromBytes (map_id' _)

theorem reads_of_large {T : Type} {p : Input T} {bytes : List UInt8} {v : T}
    (h : intMax < bytes.length) : Reads intMax p bytes v := by
  intro data pos hat hlimit
  omega

end Basic

section Items

variable {order : ByteOrder} {size : ℕ}

theorem ItemLaw.of_append {T : Type} {read : Input T} {v : T} {bytes : List UInt8}
    (hsize : bytes.length = size) (hread : Reads intMax read bytes v) :
    ItemLaw (fun out => .ok (out ++ bytes)) read v size True :=
  .written bytes hsize (appends_append bytes) (fun _ => hread) fun h => absurd trivial h

theorem itemLaw_string (s : List UInt8) :
    ItemLaw (writeBytes order s) (readString order) s (4 + s.length) True := by
  refine .written _ ?_ (appends_writeBytes s) (fun _ => ?_) fun h => absurd trivial h
  · rw [length_append, storeInt32_length]
  · by_cases h : s.length ≤ intMax
    · exact reads_readString s h
    · refine reads_of_large ?_
      rw [length_append]
      omega

theorem itemLaw_decimal (v : BigDecimal) :
    ItemLaw (writeDecimal order v) (readDecimal order) v (4 + (toBytes v.unscaled).length + 4)
      (¬ LosesSign v.unscaled) := by
  set bytes := storeInt32 order (.ofNat (digits (toBytes v.unscaled)).length) ++
    digits (toBytes v.unscaled) ++ storeInt32 order v.scale with hbytes
  have hlen : bytes.length = 4 + (toBytes v.unscaled).length + 4 := by
    rw [hbytes, length_append, length_append, storeInt32_length, storeInt32_length,
      digits_length]
  have hread : Reads intMax (readDecimal order) bytes ⟨fromBytes (toBytes v.unscaled), v.scale⟩ := by
    by_cases h : (toBytes v.unscaled).length ≤ intMax
    · exact (reads_readBigInteger v.unscaled h).bind <| (reads_readInt32 v.scale).bind_pure
        (fun scale => mk (fromBytes (toBytes v.unscaled)) scale) rfl
    · exact reads_of_large (by omega)
  have hvalue : fromBytes (toBytes v.unscaled) = v.unscaled ↔ ¬ LosesSign v.unscaled := by
    rw [fromBytes_toBytes, signedValue_toBytes_iff]
  refine .written bytes hlen ?_ (fun h => ?_) fun h => ?_
  · intro out
    rw [writeDecimal]
    have hinteger : Appends (writeBytes order (digits (toBytes v.unscaled)))
        (storeInt32 order (.ofNat (digits (toBytes v.unscaled)).length) ++
          digits (toBytes v.unscaled)) := appends_writeBytes _
    rcases hinteger out with hok | ⟨hlarge, e, herr⟩
    · left
      rw [hok, hbytes]
      exact congrArg Except.ok (append_assoc _ _ _)
    · right
      rw [herr, hbytes]
      refine ⟨?_, e, rfl⟩
      rw [length_append]
      omega
  · rwa [hvalue.mpr h] at hread
  · exact hread.misses fun heq => h (hvalue.mp (congrArg unscaled heq))

/-- Every single value is subject to a law when the records are. -/
theorem itemLaw {R : Type} {c : Codec R} {σ : R → ℕ} {S : R → Prop}
    (hc : ∀ r, ItemLaw (c.write r) c.read r (σ r) (S r)) (i : Item) (v : i.Val R) :
    ItemLaw (writeItem order c i v) (readItem order c i) v (i.size σ v) (i.Survives S v) := by
  cases i with
  | primitive p => exact .of_append (primitiveBytes_length p v) (reads_readPrimitive p v)
  | string => exact itemLaw_string v
  | decimal => exact itemLaw_decimal v
  | time => exact .of_append (timeBytes_length v) (reads_readTime v)
  | date => exact .of_append (dateBytes_length v) (reads_readDate v)
  | timestamp => exact .of_append (timestampBytes_length v) (reads_readTimestamp v)
  | timestampWithTimezone =>
    exact .of_append (timestampWithTimezoneBytes_length v) (reads_readTimestampWithTimezone v)
  | compact => exact hc v

theorem ItemLaw.present {T : Type} {write : Output → Result Output} {read : Input T} {v : T}
    {survives : Prop} (h : ItemLaw write read v size survives) :
    FieldLaw write (Reader.present read) (some v) size survives := by
  cases h with
  | unwritable hwrite hlost => exact .unwritable hwrite hlost
  | written bytes hsize hwrite hread hlost =>
    refine .written bytes hsize hwrite (fun hs data pos hat hlimit => ?_)
      fun hs data pos hat hlimit heq => ?_
    · rw [Reader.present, hread hs data pos hat hlimit]
      rfl
    · cases hv : read data pos with
      | error e =>
        rw [Reader.present, hv] at heq
        cases heq
      | ok r =>
        rw [Reader.present, hv] at heq
        obtain ⟨w, next⟩ := r
        have hw : w = v := Option.some.inj (Except.ok.inj heq)
        exact hlost hs data pos next hat hlimit (by rw [hv, hw])

end Items

end HazelcastClient.Serialization.Compact
