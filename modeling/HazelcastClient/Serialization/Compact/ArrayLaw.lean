import HazelcastClient.Serialization.Compact.VectorLaw

/-!
# Arrays on a stream

An array of items of variable size has a head with the length of its data and the number
of its items; then come the items, and behind them their offsets. Offsets take as many
bytes as the length of the data requires; the largest number of that width is left for
items that are not there.
-/

namespace HazelcastClient.Serialization.Compact

open ByteParser RandomAccess List Option Except

section OffsetTable

variable {order : ByteOrder} {dataLength : ℕ} {offset : ℤ} {data : List UInt8} {pos index : ℕ}

theorem le_mul_offsetWidth (n : ℕ) (dataLength : ℤ) : n ≤ n * offsetWidth dataLength := by
  unfold offsetWidth
  split_ifs <;> omega

/-- An offset that can be in a table: none, or a position of the data. -/
def IsOffset (dataLength : ℕ) (offset : ℤ) : Prop :=
  offset = -1 ∨ 0 ≤ offset ∧ offset ≤ dataLength

theorem offsetBytes_length (dataLength : ℕ) (offsets : List ℤ) :
    (offsetBytes order dataLength offsets).length = offsets.length * offsetWidth dataLength :=
  flatMap_length (fun _ => order.bytes_length ..) offsets

theorem lt_offsetWidth (h : dataLength ≤ intMax) :
    dataLength < 256 ^ offsetWidth dataLength - 1 := by
  unfold offsetWidth
  unfold intMax at h
  split_ifs <;> omega

theorem toNat_emod_of_lt {width n : ℕ} (h : n < 256 ^ width) :
    ((n : ℤ) % 256 ^ width).toNat = n := by
  have hlt : (n : ℤ) < 256 ^ width := by exact_mod_cast h
  rw [Int.emod_eq_of_lt (by omega) hlt, Int.toNat_natCast]

theorem toNat_emod_neg_one (width : ℕ) : ((-1 : ℤ) % 256 ^ width).toNat = 256 ^ width - 1 := by
  have hpos : (0 : ℤ) < 256 ^ width := by positivity
  have h : (-1 : ℤ) % 256 ^ width = 256 ^ width - 1 := by
    rw [show (-1 : ℤ) = 256 ^ width - 1 + 256 ^ width * (-1) by ring, Int.add_mul_emod_self_left]
    exact Int.emod_eq_of_lt (by omega) (by omega)
  rw [h]
  zify [Nat.one_le_pow width 256 (by decide)]
  rw [Int.toNat_of_nonneg (by omega)]

theorem getOffset_of_bytes (hlength : dataLength ≤ intMax) (h : IsOffset dataLength offset)
    (hat : At data (pos + index * offsetWidth dataLength)
      (order.bytes (offsetWidth dataLength)
        (offset % 256 ^ offsetWidth dataLength).toNat))
    (hlimit : pos + index * offsetWidth dataLength + offsetWidth dataLength ≤ intMax) :
    getOffset order (offsetWidth dataLength) data pos index = .ok offset := by
  have hmax := lt_offsetWidth hlength
  set width := offsetWidth dataLength with hwidth
  have hread : ∀ n, n < 256 ^ width → (offset % 256 ^ width).toNat = n →
      getOffset order width data pos index =
        if n = 256 ^ width - 1 then .ok (-1) else .ok (UInt32.ofNat n).toInt32.toInt := by
    rintro n hn rfl
    have hnat := reads_readNat hn data _ hat (by rw [order.bytes_length]; exact hlimit)
    rw [getOffset, toInt_of_le (by omega), ok_bind, hnat, ok_bind]
  rcases h with rfl | ⟨h0, hle⟩
  · rw [hread _ (Nat.sub_lt (by positivity) (by decide)) (toNat_emod_neg_one width), if_pos rfl]
  · obtain ⟨n, rfl⟩ := Int.eq_ofNat_of_zero_le h0
    have hn : n ≤ dataLength := by exact_mod_cast hle
    rw [hread n (by omega) (toNat_emod_of_lt (by omega)), if_neg (by omega)]
    exact congrArg ok (int32_ofNat_toInt (by omega))

theorem getOffset_of_table {offsets : List ℤ} (hlength : dataLength ≤ intMax)
    (h : ∀ o ∈ offsets, IsOffset dataLength o)
    (hat : At data pos (offsetBytes order dataLength offsets))
    (hlimit : pos + (offsetBytes order dataLength offsets).length ≤ intMax)
    (hindex : offsets[index]? = some offset) :
    getOffset order (offsetWidth dataLength) data pos index = .ok offset := by
  have hentry : At (offsetBytes order dataLength offsets) (index * offsetWidth dataLength)
      (order.bytes (offsetWidth dataLength) (offset % 256 ^ offsetWidth dataLength).toNat) :=
    at_flatMap (fun o _ => order.bytes_length _ _) hindex
  have hat' := hat.trans hentry
  have hbound := hentry.bound
  rw [order.bytes_length] at hbound
  exact getOffset_of_bytes hlength (h _ (mem_of_getElem? hindex)) hat' (by omega)

end OffsetTable

section Writing

variable {order : ByteOrder} {out : Output} {T : Type} {write : T → Output → Result Output}
  {enc : T → List UInt8} {start : ℕ} {vs : List (Option T)}

theorem toUInt32_ofNat {n : ℕ} (h : n ≤ intMax) : (Int32.ofNat n).toUInt32.toNat = n := by
  have hn : n < 2 ^ 32 := by
    unfold intMax at h
    omega
  exact UInt32.toNat_ofNat_of_lt' hn

theorem bytes_eq_storeInt32 {n : ℕ} (h : n ≤ intMax) :
    order.bytes 4 n = storeInt32 order (.ofNat n) := by
  rw [storeInt32, toUInt32_ofNat h]

theorem checkAvailable_cases {index requested : ℕ} (h : index + requested ≤ out.length) :
    checkAvailable index requested out = .ok () ∨
      intMax < out.length ∧ ∃ e, checkAvailable index requested out = .error e := by
  by_cases hle : out.length - index ≤ intMax
  · left
    have hsize : toSize ((out.length : ℤ) - (index : ℤ)) = out.length - index := by
      rw [toSize, if_pos (by omega)]
      omega
    rw [checkAvailable, hsize, toInt_of_le hle, ok_bind, if_neg (by omega)]
  · cases hcheck : checkAvailable index requested out with
    | ok _ => exact .inl rfl
    | error e => exact .inr ⟨by omega, e, rfl⟩

theorem writeAt_cases (order : ByteOrder) {width index : ℕ} (value : ℕ)
    (h : index + width ≤ out.length) :
    writeAt order width value index out = .ok (overwrite out index (order.bytes width value)) ∨
      intMax < out.length ∧ ∃ e, writeAt order width value index out = .error e := by
  rcases checkAvailable_cases h with hok | ⟨hlarge, e, herr⟩
  · left
    rw [writeAt, hok, ok_bind]
  · right
    refine ⟨hlarge, e, ?_⟩
    rw [writeAt, herr, error_bind]

def itemsData (enc : T → List UInt8) (vs : List (Option T)) : List UInt8 :=
  vs.flatMap fun v => v.elim [] enc

/-- The offsets of the items, from the position `pos` on. -/
def itemOffsets (enc : T → List UInt8) : ℕ → List (Option T) → List ℤ
  | _, [] => []
  | pos, none :: vs => -1 :: itemOffsets enc pos vs
  | pos, some v :: vs => (pos : ℤ) :: itemOffsets enc (pos + (enc v).length) vs

def arrayBytes (order : ByteOrder) (enc : T → List UInt8) (vs : List (Option T)) : List UInt8 :=
  storeInt32 order (.ofNat (itemsData enc vs).length) ++ storeInt32 order (.ofNat vs.length) ++
    itemsData enc vs ++ offsetBytes order (itemsData enc vs).length (itemOffsets enc 0 vs)

@[simp] theorem itemsData_nil : itemsData enc [] = [] := rfl

@[simp] theorem itemsData_none (vs : List (Option T)) :
    itemsData enc (none :: vs) = itemsData enc vs := rfl

@[simp] theorem itemsData_some (v : T) (vs : List (Option T)) :
    itemsData enc (some v :: vs) = enc v ++ itemsData enc vs := rfl

@[simp] theorem itemOffsets_length (pos : ℕ) (vs : List (Option T)) :
    (itemOffsets enc pos vs).length = vs.length := by
  induction vs generalizing pos with
  | nil => rfl
  | cons v vs ih =>
    cases v with
    | none | some v => rw [itemOffsets, length_cons, ih, length_cons]

theorem itemOffsets_isOffset (pos : ℕ) (vs : List (Option T)) :
    ∀ o ∈ itemOffsets enc pos vs, IsOffset (pos + (itemsData enc vs).length) o := by
  induction vs generalizing pos with
  | nil => exact fun o ho => by cases ho
  | cons v vs ih =>
    intro o ho
    cases v with
    | none =>
      rcases mem_cons.mp ho with rfl | hmem
      · exact .inl rfl
      · exact ih pos o hmem
    | some v =>
      rw [itemsData_some, length_append, ← Nat.add_assoc]
      rcases mem_cons.mp ho with rfl | hmem
      · exact .inr ⟨by omega, by omega⟩
      · exact ih _ o hmem

theorem arrayBytes_length (vs : List (Option T)) :
    (arrayBytes order enc vs).length =
      8 + (itemsData enc vs).length + vs.length * offsetWidth (itemsData enc vs).length := by
  rw [arrayBytes, length_append, length_append, length_append, storeInt32_length,
    storeInt32_length, offsetBytes_length, itemOffsets_length]

theorem writeItems_cases (out : Output) (h : ∀ v, some v ∈ vs → Appends (write v) (enc v))
    (hstart : start ≤ out.length) :
    writeItems write start vs out =
        .ok (itemOffsets enc (out.length - start) vs, out ++ itemsData enc vs) ∨
      intMax < out.length + (itemsData enc vs).length ∧
        ∃ e, writeItems write start vs out = .error e := by
  induction vs generalizing out with
  | nil =>
    left
    rw [writeItems, itemsData_nil, append_nil]
    rfl
  | cons v vs ih =>
    have hrest : ∀ v, some v ∈ vs → Appends (write v) (enc v) :=
      fun v hv => h v (mem_cons_of_mem _ hv)
    cases v with
    | none =>
      rcases ih out hrest hstart with hok | ⟨hlarge, e, herr⟩
      · left
        rw [writeItems, hok, ok_bind, itemsData_none]
        rfl
      · right
        refine ⟨hlarge, e, ?_⟩
        rw [writeItems, herr, error_bind]
    | some v =>
      rw [itemsData_some, length_append]
      by_cases hoffset : out.length - start ≤ intMax
      · rcases h v mem_cons_self out with hok | ⟨hlarge, e, herr⟩
        · have hlen : (out ++ enc v).length = out.length + (enc v).length :=
            length_append
          rcases ih (out ++ enc v) hrest (by omega) with hok' | ⟨hlarge, e, herr⟩
          · left
            rw [writeItems, toInt_of_le hoffset, ok_bind, hok, ok_bind, hok', ok_bind, hlen,
              Nat.sub_add_comm hstart, append_assoc]
            rfl
          · right
            refine ⟨by omega, e, ?_⟩
            rw [writeItems, toInt_of_le hoffset, ok_bind, hok, ok_bind, herr, error_bind]
        · right
          refine ⟨by omega, e, ?_⟩
          rw [writeItems, toInt_of_le hoffset, ok_bind, herr, error_bind]
      · right
        refine ⟨by omega, .undefined, ?_⟩
        rw [writeItems, toInt_of_lt (by omega), error_bind]

theorem writeItems_error {v : T} (hv : some v ∈ vs) (h : ∀ out, ∃ e, write v out = .error e)
    (out : Output) :
    ∃ e, writeItems write start vs out = .error e := by
  induction vs generalizing out with
  | nil => cases hv
  | cons w vs ih =>
    cases w with
    | none =>
      have hmem : some v ∈ vs := by simpa using hv
      obtain ⟨e, he⟩ := ih hmem out
      exact ⟨e, by rw [writeItems, he, error_bind]⟩
    | some w =>
      rw [writeItems]
      cases toInt (out.length - start) with
      | error e => exact ⟨e, rfl⟩
      | ok offset =>
        rw [ok_bind]
        cases hw : write w out with
        | error e => exact ⟨e, rfl⟩
        | ok out' =>
          rw [ok_bind]
          rcases mem_cons.mp hv with heq | hmem
          · obtain rfl := some.inj heq
            obtain ⟨e, he⟩ := h out
            rw [he] at hw
            cases hw
          · obtain ⟨e, he⟩ := ih hmem out'
            exact ⟨e, by rw [he, error_bind]⟩

theorem appends_writeArray (h : ∀ v, some v ∈ vs → Appends (write v) (enc v)) :
    Appends (writeArray order write vs) (arrayBytes order enc vs) := by
  intro out
  have hcounted := le_mul_offsetWidth vs.length (itemsData enc vs).length
  rw [arrayBytes_length, writeArray]
  by_cases hcount : vs.length ≤ intMax
  · set head := out ++ zeroBytes 4 ++ storeInt32 order (.ofNat vs.length) with hhead
    have hheadlen : head.length = out.length + 8 := by
      simp [hhead, zeroBytes]
    rw [toInt_of_le hcount, ok_bind]
    rcases writeItems_cases head h (le_refl head.length) with
      hok | ⟨hlarge, e, herr⟩
    · have hlen : (head ++ itemsData enc vs).length - head.length = (itemsData enc vs).length := by
        rw [length_append]
        omega
      dsimp only
      rw [hok, ok_bind]
      dsimp only
      rw [hlen, Nat.sub_self]
      by_cases hdata : (itemsData enc vs).length ≤ intMax
      · rw [toInt_of_le hdata, ok_bind]
        have hroom : out.length + 4 ≤ (head ++ itemsData enc vs).length := by
          rw [length_append]
          omega
        rcases writeAt_cases order (itemsData enc vs).length hroom with
          hwrite | ⟨hlarge, e, herr⟩
        · left
          rw [hwrite, ok_bind]
          refine congrArg ok ?_
          rw [hhead, append_assoc (out ++ zeroBytes 4),
            overwrite_middle out (zeroBytes 4) _ (by simp [zeroBytes]), arrayBytes,
            bytes_eq_storeInt32 hdata]
          simp only [append_assoc]
        · right
          rw [length_append] at hlarge
          rw [herr, error_bind]
          exact ⟨by omega, e, rfl⟩
      · right
        rw [toInt_of_lt (by omega), error_bind]
        exact ⟨by omega, _, rfl⟩
    · right
      dsimp only
      rw [herr, error_bind]
      exact ⟨by omega, e, rfl⟩
  · right
    rw [toInt_of_lt (by omega), error_bind]
    exact ⟨by omega, _, rfl⟩

end Writing

section Reading

variable {order : ByteOrder} {T : Type} {enc : T → List UInt8} {data : List UInt8} {pos : ℕ}
  {p : Input T} {S : T → Prop} {vs : List (Option T)}

theorem moveTo_of_le {current target : ℕ} (hdata : target ≤ data.length) (hlimit : target ≤ intMax) :
    moveTo data current target = .ok target := by
  rw [moveTo, if_neg (by omega), if_neg (by omega), Int.toNat_natCast]

theorem readArrayHead_of_at {bytes : List UInt8} {n m : ℕ} (hn : n ≤ intMax) (hm : m ≤ intMax)
    (hat : At data pos (storeInt32 order (.ofNat n) ++ storeInt32 order (.ofNat m) ++ bytes))
    (hlimit : pos + 8 ≤ intMax) :
    readArrayHead order data pos = .ok ⟨n, m, pos + 8⟩ := by
  have hfirst := reads_readInt32 (.ofNat n) data pos hat.left.left
    (by rw [storeInt32_length]; omega)
  have hsecond := reads_readInt32 (.ofNat m) data _ hat.left.right
    (by rw [storeInt32_length, storeInt32_length]; omega)
  rw [readArrayHead, hfirst, ok_bind, hsecond, ok_bind, int32_ofNat_toInt hn, int32_ofNat_toInt hm,
    storeInt32_length, storeInt32_length]

/-- The items of an array come back when each of them does. -/
theorem bind_cons_eq_ok_iff {U : Type} {x : Result (List U)} {v w : U} {ws : List U} :
    (x >>= fun us => .ok (v :: us)) = .ok (w :: ws) ↔ v = w ∧ x = .ok ws := by
  cases x with
  | error e => exact iff_of_false nofun fun h => nomatch h.2
  | ok us => simp

theorem readItems_iff {head : ArrayHead} {index : ℕ} (current : ℕ)
    (hread : ∀ v, some v ∈ vs → (S v → Reads intMax p (enc v) v) ∧
      (¬ S v → Misses intMax p (enc v) v))
    (hoffsets : ∀ i o, (itemOffsets enc pos vs)[i]? = some o →
      getOffset order (offsetWidth head.dataLength) data head.offsetsPosition (index + i) = .ok o)
    (hat : At data (head.dataStartPos + pos) (itemsData enc vs))
    (hlimit : head.dataStartPos + pos + (itemsData enc vs).length ≤ intMax) :
    readItems order p data head vs.length index current = .ok vs ↔ ∀ v, some v ∈ vs → S v := by
  induction vs generalizing pos index current with
  | nil => exact iff_of_true rfl nofun
  | cons v vs ih =>
    have hrest : ∀ w, some w ∈ vs → (S w → Reads intMax p (enc w) w) ∧
        (¬ S w → Misses intMax p (enc w) w) := fun w hw => hread w (mem_cons_of_mem _ hw)
    cases v with
    | none =>
      have hnull := hoffsets 0 (-1) rfl
      have htail : readItems order p data head vs.length (index + 1) current = .ok vs ↔
          ∀ w, some w ∈ vs → S w := by
        refine ih current hrest (fun i o hi => ?_) hat hlimit
        rw [Nat.add_assoc, Nat.add_comm 1]
        exact hoffsets (i + 1) o hi
      rw [length_cons, readItems]
      rw [Nat.add_zero] at hnull
      rw [hnull, ok_bind, if_pos rfl, bind_cons_eq_ok_iff, htail]
      simp
    | some v =>
      rw [itemsData_some] at hat hlimit
      rw [length_append] at hlimit
      have hpos := hoffsets 0 pos rfl
      rw [Nat.add_zero] at hpos
      have hbound := hat.left.bound
      have hmove : moveTo data current ((pos : ℤ) + (head.dataStartPos : ℤ)) =
          .ok (head.dataStartPos + pos) := by
        have h : moveTo data current ((head.dataStartPos + pos : ℕ) : ℤ) =
            .ok (head.dataStartPos + pos) := moveTo_of_le (by omega) (by omega)
        rwa [Nat.cast_add, Int.add_comm] at h
      have hat' := hat.right
      rw [Nat.add_assoc] at hat'
      have htail : ∀ next, readItems order p data head vs.length (index + 1) next = .ok vs ↔
          ∀ w, some w ∈ vs → S w := by
        intro next
        refine ih next hrest (fun i o hi => ?_) hat' (by omega)
        rw [Nat.add_assoc, Nat.add_comm 1]
        exact hoffsets (i + 1) o hi
      have hmem : (∀ w, some w ∈ some v :: vs → S w) ↔ S v ∧ ∀ w, some w ∈ vs → S w := by
        simp [or_imp, forall_and]
      obtain ⟨hsurvives, hlost⟩ := hread v mem_cons_self
      rw [length_cons, readItems, hpos, ok_bind, if_neg (by omega), hmove, ok_bind, hmem]
      by_cases hv : S v
      · rw [hsurvives hv data _ hat.left (by omega), ok_bind, bind_cons_eq_ok_iff, htail,
          and_iff_right rfl, and_iff_right hv]
      · refine iff_of_false (fun heq => ?_) fun h => hv h.1
        obtain ⟨r, hp, heq⟩ := bind_eq_ok heq
        obtain ⟨hvalue, -⟩ := bind_cons_eq_ok_iff.mp heq
        refine hlost hv data _ r.2 hat.left (by omega) ?_
        rw [hp, ← some.inj hvalue]

theorem array_head (hat : At data pos (arrayBytes order enc vs))
    (hlimit : pos + (arrayBytes order enc vs).length ≤ intMax) :
    readArrayHead order data pos = .ok ⟨(itemsData enc vs).length, vs.length, pos + 8⟩ ∧
      ∀ i o, (itemOffsets enc 0 vs)[i]? = some o →
        getOffset order (offsetWidth (itemsData enc vs).length) data
          (ArrayHead.offsetsPosition ⟨(itemsData enc vs).length, vs.length, pos + 8⟩) (0 + i) =
            .ok o := by
  have hcounted := le_mul_offsetWidth vs.length (itemsData enc vs).length
  rw [arrayBytes_length] at hlimit
  have htable : At data (pos + 8 + (itemsData enc vs).length)
      (offsetBytes order (itemsData enc vs).length (itemOffsets enc 0 vs)) := by
    have h := hat.right
    rwa [length_append, length_append, storeInt32_length, storeInt32_length,
      ← Nat.add_assoc] at h
  have hposition : toUnsigned (((pos + 8 : ℕ) : ℤ) + ((itemsData enc vs).length : ℤ)) =
      pos + 8 + (itemsData enc vs).length := by
    unfold toUnsigned
    unfold intMax at hlimit
    omega
  constructor
  · rw [arrayBytes, append_assoc] at hat
    exact readArrayHead_of_at (by omega) (by omega) hat (by omega)
  · intro i o hi
    rw [Nat.zero_add, ArrayHead.offsetsPosition, hposition]
    refine getOffset_of_table (by omega) (fun o ho => ?_) htable ?_ hi
    · have h := itemOffsets_isOffset 0 vs o ho
      rwa [Nat.zero_add] at h
    · rw [offsetBytes_length, itemOffsets_length]
      omega

theorem items_iff (hread : ∀ v, some v ∈ vs → (S v → Reads intMax p (enc v) v) ∧
      (¬ S v → Misses intMax p (enc v) v)) (hat : At data pos (arrayBytes order enc vs))
    (hlimit : pos + (arrayBytes order enc vs).length ≤ intMax) :
    Reader.items order p data pos = .ok (some vs) ↔ ∀ v, some v ∈ vs → S v := by
  obtain ⟨hhead, hoffsets⟩ := array_head hat hlimit
  rw [arrayBytes_length] at hlimit
  have hdata : At data (pos + 8) (itemsData enc vs) := by
    have h := hat.left.right
    rwa [length_append, storeInt32_length, storeInt32_length] at h
  have hitems : readItems order p data ⟨(itemsData enc vs).length, vs.length, pos + 8⟩
      vs.length 0 (pos + 8) = .ok vs ↔ ∀ v, some v ∈ vs → S v :=
    readItems_iff (pos + 8) hread hoffsets hdata (by dsimp only; omega)
  rw [← hitems, Reader.items, readArray, hhead, ok_bind]
  dsimp only
  rw [if_neg (by omega), Int.toNat_natCast]
  cases readItems order p data ⟨(itemsData enc vs).length, vs.length, pos + 8⟩ vs.length 0
      (pos + 8) with
  | error e => exact iff_of_false (by rintro ⟨⟩) (by rintro ⟨⟩)
  | ok ws => rw [ok_bind, ok.injEq, some.injEq, ok.injEq]

end Reading

def itemsSize {T : Type} (size : T → ℕ) (vs : List (Option T)) : ℕ :=
  (vs.map fun v => v.elim 0 size).sum

def arraySize {T : Type} (size : T → ℕ) (vs : List (Option T)) : ℕ :=
  8 + itemsSize size vs + vs.length * offsetWidth (itemsSize size vs)

theorem itemsData_length {T : Type} {enc : T → List UInt8} {size : T → ℕ} {vs : List (Option T)}
    (h : ∀ v, some v ∈ vs → (enc v).length = size v) :
    (itemsData enc vs).length = itemsSize size vs := by
  induction vs with
  | nil => rfl
  | cons v vs ih =>
    have hrest := ih fun w hw => h w (mem_cons_of_mem _ hw)
    cases v with
    | none =>
      rw [itemsData_none, hrest, itemsSize, itemsSize, map_cons, sum_cons,
        elim_none, Nat.zero_add]
    | some v =>
      rw [itemsData_some, length_append, hrest, h v mem_cons_self, itemsSize,
        itemsSize, map_cons, sum_cons, elim_some]

/-- An array comes back when all its items do. -/
theorem arrayLaw {order : ByteOrder} {T : Type} {write : T → Output → Result Output}
    {read : Input T} {size : T → ℕ} {S : T → Prop} {vs : List (Option T)}
    (h : ∀ v, some v ∈ vs → ItemLaw (write v) read v (size v) (S v)) :
    FieldLaw (writeArray order write vs) (Reader.items order read) (some vs) (arraySize size vs)
      (∀ v, some v ∈ vs → S v) := by
  by_cases hall : ∀ v, some v ∈ vs → ∃ bytes, bytes.length = size v ∧ Appends (write v) bytes ∧
      (S v → Reads intMax read bytes v) ∧ (¬ S v → Misses intMax read bytes v)
  · choose! enc hsize happends hread hmisses using hall
    have hitems : ∀ v, some v ∈ vs → (S v → Reads intMax read (enc v) v) ∧
        (¬ S v → Misses intMax read (enc v) v) := fun v hv => ⟨hread v hv, hmisses v hv⟩
    refine .written (arrayBytes order enc vs) ?_ (appends_writeArray happends)
      (fun hs data pos hat hlimit => (items_iff hitems hat hlimit).mpr hs)
      fun hs data pos hat hlimit heq => hs ((items_iff hitems hat hlimit).mp heq)
    rw [arrayBytes_length, itemsData_length hsize, arraySize]
  · push Not at hall
    obtain ⟨v, hv, hno⟩ := hall
    cases h v hv with
    | written bytes hsize happends hread hmisses =>
      exact absurd hmisses (by simpa using hno bytes hsize happends hread)
    | unwritable hwrite hlost =>
      refine .unwritable (fun out => ?_) fun hs => hlost (hs v hv)
      rw [writeArray]
      cases toInt vs.length with
      | error e => exact ⟨e, rfl⟩
      | ok itemCount =>
        rw [ok_bind]
        dsimp only
        obtain ⟨e, he⟩ := writeItems_error hv hwrite
          (out ++ zeroBytes 4 ++ storeInt32 order (.ofNat itemCount))
        exact ⟨e, by rw [he, error_bind]⟩

end HazelcastClient.Serialization.Compact
