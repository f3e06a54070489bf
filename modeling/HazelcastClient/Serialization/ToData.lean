import HazelcastClient.Serialization.Data

/-!
# Headers and partition keys

`SerializationService::to_data` writes the partition hash of an object, its type
id and its content. An object that is not partition aware has the hash zero; a
partition aware object writes the hash of its partition key, which is serialized
for that purpose, and nothing if the pointer to the key is null.

What the serializer of a type writes after the type id is a parameter of the
object. The overload for `typed_data` returns data that has been serialized
before and does not come here.
-/

namespace HazelcastClient.Serialization

open List Data Except

/-- An object that `to_data` accepts: its type id, what its serializer writes,
and, for a `partition_aware` object, the pointer to the partition key. -/
inductive Obj where
  | plain (typeId : Int32) (content : ByteOrder → List UInt8)
  | partitionAware (typeId : Int32) (content : ByteOrder → List UInt8) (partitionKey : Option Obj)

namespace Obj

def typeId : Obj → Int32
  | plain typeId _ => typeId
  | partitionAware typeId _ _ => typeId

def content : Obj → ByteOrder → List UInt8
  | plain _ content => content
  | partitionAware _ content _ => content

/-- The result of `get_partition_key`, for a partition aware object. -/
def getPartitionKey : Obj → Option (Option Obj)
  | plain _ _ => none
  | partitionAware _ _ key => some key

end Obj

/-- `object_data_output::write_object`: the type id is always big-endian. -/
def writeObject (order : ByteOrder) (o : Obj) : List UInt8 :=
  storeInt32 .big o.typeId ++ o.content order

/-- The two overloads of `write_hash`. The hash of a partition key goes through
`write<int32_t>`, which uses the configured byte order. -/
def writeHash (order : ByteOrder) : Obj → Except Exception (List UInt8)
  | .plain _ _ => .ok (storeInt32 .big 0)
  | .partitionAware _ _ none => .ok []
  | .partitionAware _ _ (some key) => do
    let hash ← writeHash order key
    let partitionKey ← ofBuffer (hash ++ writeObject order key)
    return storeInt32 order partitionKey.getPartitionHash

def toData (order : ByteOrder) (o : Obj) : Except Exception Data := do
  let hash ← writeHash order o
  ofBuffer (hash ++ writeObject order o)

def getPartitionId (partitionCount : ℕ) (key : Data) : ℕ :=
  if partitionCount = 0 then 0
  else Util.hashToIndex key.getPartitionHash.toInt partitionCount

theorem writeHash_some (order : ByteOrder) (typeId : Int32) (content : ByteOrder → List UInt8)
    (key : Obj) :
    writeHash order (.partitionAware typeId content (some key)) =
      (toData order key).map fun d => storeInt32 order d.getPartitionHash := by
  simp only [writeHash, toData]
  cases writeHash order key with
  | error e => rfl
  | ok hash =>
    cases ofBuffer (hash ++ writeObject order key) with
    | error e | ok d => rfl

variable {order : ByteOrder} {hash : List UInt8}

theorem toData_eq_ofBuffer {o : Obj} (hash : List UInt8) (h : writeHash order o = .ok hash) :
    toData order o = ofBuffer (hash ++ writeObject order o) := by
  rw [toData, h]
  rfl

theorem writeObject_length (order : ByteOrder) (o : Obj) :
    (writeObject order o).length = 4 + (o.content order).length := by
  simp [writeObject]

theorem dataOverhead_le (o : Obj) (h : hash.length = 4) :
    dataOverhead ≤ (hash ++ writeObject order o).length := by
  rw [length_append, h, writeObject_length, dataOverhead]
  omega

theorem ofBuffer_header (order : ByteOrder) (o : Obj) (h : hash.length = 4) :
    ∃ d, ofBuffer (hash ++ writeObject order o) = .ok d ∧
      d.bytes = hash ++ writeObject order o ∧ d.getType = o.typeId ∧
      d.getPartitionHash = calculateHash (hash ++ writeObject order o) := by
  refine ⟨_, ofBuffer_of_le (dataOverhead_le o h), rfl, ?_, rfl⟩
  rw [getType, if_neg (by rw [length_append, h]; omega), drop_append,
    drop_of_length_le h.le, h, nil_append, Nat.sub_self, drop_zero, writeObject,
    loadInt32_append _ _ _ (by simp), loadInt32_storeInt32]

/-- The content of an object with its header is short enough for an `int`. -/
def Fits (order : ByteOrder) (o : Obj) : Prop :=
  dataOverhead + (o.content order).length < 2 ^ 31

theorem calculateHash_header {o : Obj} (hfits : Fits order o) (h : hash.length = 4) :
    calculateHash (hash ++ writeObject order o) =
      if o.content order = [] then 0
      else if loadInt32 .little hash = 0 then Util.murmurHash3 (o.content order)
      else loadInt32 .big hash := by
  have hlength : (hash ++ writeObject order o).length = dataOverhead + (o.content order).length := by
    rw [length_append, h, writeObject_length, dataOverhead]
    omega
  have hsize : dataSize (hash ++ writeObject order o) = (o.content order).length := by
    rw [dataSize_of_lt (hlength ▸ hfits), hlength, Nat.add_sub_cancel_left]
  have hrest : (hash ++ writeObject order o).drop dataOverhead = o.content order := by
    rw [writeObject, ← append_assoc, drop_left' (by simp [h, dataOverhead])]
  rw [calculateHash, hsize, hasPartitionHash, hrest, take_length,
    decide_eq_true (dataOverhead_le o h),
    Bool.true_and, loadInt32_append _ _ _ h, loadInt32_append _ _ _ h]
  by_cases hzero : loadInt32 .little hash = 0 <;> simp [hzero]

/-- What is promised of the header of an object and of its partition key. -/
structure HonoursKey (order : ByteOrder) (o : Obj) : Prop where
  header : ∀ d, toData order o = .ok d → d.getType = o.typeId ∧
    ∃ hash, hash.length = 4 ∧ d.bytes = hash ++ writeObject order o
  key : ∀ k, o.getPartitionKey = some (some k) → ∀ d dk, toData order o = .ok d →
    toData order k = .ok dk → d.getPartitionHash = dk.getPartitionHash ∧
      ∀ partitionCount, getPartitionId partitionCount d = getPartitionId partitionCount dk
  null : o.getPartitionKey = some none →
    toData order o = toData order (.plain o.typeId o.content)

/-- When the hash in front of an object is the hash of its partition key again. A
hash of zero counts as absent, so that the content is hashed in its place; an object
without content has the hash zero; and the bytes of the hash are read back in
big-endian order. -/
def KeepsHash (order : ByteOrder) : Obj → Prop
  | .plain _ _ => True
  | .partitionAware _ _ none => False
  | .partitionAware _ content (some key) => ∀ dk, toData order key = .ok dk →
      if dk.getPartitionHash = 0 then
        content order = [] ∨ Util.murmurHash3 (content order) = 0
      else
        content order ≠ [] ∧
          (order = .big ∨ endianReverse dk.getPartitionHash = dk.getPartitionHash)

theorem loadInt32_big_store (order : ByteOrder) (value : Int32) :
    loadInt32 .big (storeInt32 order value) = value ↔
      order = .big ∨ endianReverse value = value := by
  cases order with
  | big => simp
  | little => simp [endianReverse]

theorem keepsHash_some_iff {typeId : Int32} {content : ByteOrder → List UInt8} {key : Obj}
    {dk : Data} (hkey : toData order key = .ok dk) :
    KeepsHash order (.partitionAware typeId content (some key)) ↔
      if dk.getPartitionHash = 0 then
        content order = [] ∨ Util.murmurHash3 (content order) = 0
      else
        content order ≠ [] ∧
          (order = .big ∨ endianReverse dk.getPartitionHash = dk.getPartitionHash) := by
  refine ⟨fun h => h dk hkey, fun h dk' hdk' => ?_⟩
  obtain rfl := ok.inj (hkey.symm.trans hdk')
  exact h

/-- When the hash of an object with the stored `hash` in front is `hash` again. -/
theorem calculateHash_eq_iff (order : ByteOrder) (typeId : Int32)
    (content : ByteOrder → List UInt8) (key : Obj) (hash : Int32)
    (hfits : Fits order (.partitionAware typeId content (some key))) :
    calculateHash (storeInt32 order hash ++
        writeObject order (.partitionAware typeId content (some key))) = hash ↔
      if hash = 0 then
        content order = [] ∨ Util.murmurHash3 (content order) = 0
      else
        content order ≠ [] ∧ (order = .big ∨ endianReverse hash = hash) := by
  have hzero : loadInt32 .little (storeInt32 order hash) = 0 ↔ hash = 0 :=
    loadInt32_eq_zero_iff _ _ _
  rw [calculateHash_header hfits (storeInt32_length _ _), ← loadInt32_big_store, if_congr hzero rfl rfl]
  by_cases hc : content order = [] <;> by_cases hz : hash = 0 <;>
    simp [Obj.content, hc, hz, eq_comm (a := (0 : Int32))]

theorem honoursKey_plain (order : ByteOrder) (typeId : Int32)
    (content : ByteOrder → List UInt8) : HonoursKey order (.plain typeId content) := by
  have hlen : (storeInt32 .big 0).length = 4 := storeInt32_length _ _
  obtain ⟨d, hd, hbytes, htype, -⟩ :=
    ofBuffer_header order (.plain typeId content) hlen
  refine ⟨?_, fun k hk => (by simp [Obj.getPartitionKey] at hk), fun hk => rfl⟩
  intro d' hd'
  rw [toData_eq_ofBuffer _ rfl, hd] at hd'
  obtain rfl := ok.inj hd'
  exact ⟨htype, _, hlen, hbytes⟩

/-- Without a partition key the four bytes of the hash are missing: the data is four
bytes shorter than that of the same object without the interface. -/
theorem not_honoursKey_null (order : ByteOrder) (typeId : Int32)
    (content : ByteOrder → List UInt8) :
    ¬ HonoursKey order (.partitionAware typeId content none) := by
  intro h
  have hlen : (storeInt32 .big 0).length = 4 := storeInt32_length _ _
  obtain ⟨d, hd, hbytes, -⟩ :=
    ofBuffer_header order (.plain typeId content) hlen
  have heq := h.null rfl
  rw [toData_eq_ofBuffer [] rfl,
    toData_eq_ofBuffer (o := .plain _ _) (storeInt32 .big 0) rfl] at heq
  have hshort := bytes_of_ofBuffer (heq.trans hd)
  have hcontra := congrArg List.length (hbytes.symm.trans hshort)
  simp [writeObject_length, Obj.content] at hcontra

theorem honoursKey_some_iff {typeId : Int32} {content : ByteOrder → List UInt8} {key : Obj}
    (hfits : Fits order (.partitionAware typeId content (some key))) :
    HonoursKey order (.partitionAware typeId content (some key)) ↔
      KeepsHash order (.partitionAware typeId content (some key)) := by
  cases hkey : toData order key with
  | error e =>
    -- A key that cannot be serialized makes `to_data` fail for the object too.
    have hfail : toData order (.partitionAware typeId content (some key)) = .error e := by
      rw [toData, writeHash_some, hkey]
      rfl
    refine iff_of_true ⟨by simp [hfail], by simp [hfail], nofun⟩ fun dk hdk => ?_
    rw [hkey] at hdk
    cases hdk
  | ok dk =>
    set hash := storeInt32 order dk.getPartitionHash with hhash
    have hlen : hash.length = 4 := storeInt32_length _ _
    obtain ⟨d, hd, hbytes, htype, hcalc⟩ := ofBuffer_header order
      (.partitionAware typeId content (some key)) hlen
    have hdata : toData order (.partitionAware typeId content (some key)) = .ok d := by
      rw [toData_eq_ofBuffer hash (by rw [writeHash_some, hkey]; rfl), hd]
    have hlaw : d.getPartitionHash = dk.getPartitionHash ↔
        KeepsHash order (.partitionAware typeId content (some key)) := by
      rw [hcalc, keepsHash_some_iff hkey]
      exact calculateHash_eq_iff order typeId content key dk.getPartitionHash hfits
    constructor
    · intro h
      exact hlaw.mp (h.key key rfl d dk hdata hkey).1
    · intro h
      have heq := hlaw.mpr h
      refine ⟨?_, ?_, fun hk => by cases hk⟩
      · intro d' hd'
        obtain rfl := ok.inj (hdata.symm.trans hd')
        exact ⟨htype, hash, hlen, hbytes⟩
      · intro k hk d' dk' hd' hdk'
        cases hk
        obtain rfl := ok.inj (hdata.symm.trans hd')
        obtain rfl := ok.inj (hkey.symm.trans hdk')
        exact ⟨heq, fun n => by rw [getPartitionId, getPartitionId, heq]⟩

/-- The header and the partition of an object are as promised exactly when it has no
partition key to follow, or a key whose hash survives in the header. -/
theorem honoursKey_iff {o : Obj} (hfits : Fits order o) :
    HonoursKey order o ↔ KeepsHash order o := by
  cases o with
  | plain typeId content => exact iff_of_true (honoursKey_plain order typeId content) trivial
  | partitionAware typeId content key =>
    cases key with
    | none => exact iff_of_false (not_honoursKey_null order typeId content) id
    | some key => exact honoursKey_some_iff hfits

/-- An identified object (factory `1`, class `1`, no fields) with a partition key. -/
def identified (partitionKey : Option Obj) : Obj :=
  .partitionAware (-2) (fun order => 1 :: storeInt32 order 1 ++ storeInt32 order 1) partitionKey

/-- The integer `1`. -/
def one : Obj := .plain (-7) fun order => storeInt32 order 1

theorem fits_identified (order : ByteOrder) (key : Option Obj) : Fits order (identified key) := by
  simp [Fits, identified, Obj.content, dataOverhead]

/-- With big-endian byte order the object goes to the partition of its key. -/
theorem honoursKey_identified : HonoursKey .big (identified (some one)) := by
  rw [honoursKey_iff (fits_identified _ _), identified, keepsHash_some_iff rfl]
  decide +kernel

/-- With little-endian byte order the object gets the hash of its key with the bytes
reversed. With a null key its data lacks the partition hash. -/
theorem honoursKey_fails :
    ¬ HonoursKey .little (identified (some one)) ∧ ¬ HonoursKey .big (identified none) := by
  refine ⟨?_, not_honoursKey_null _ _ _⟩
  rw [identified, honoursKey_some_iff (fits_identified _ _)]
  intro h
  have hkeeps := h _ (by rfl)
  revert hkeeps
  decide +kernel

end HazelcastClient.Serialization
