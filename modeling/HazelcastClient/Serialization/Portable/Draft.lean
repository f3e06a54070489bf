import HazelcastClient.Serialization.Portable.Format
import HazelcastClient.Serialization.Compact.ArrayLaw

/-!
# The output of a writer of portables

`Runs` is what we know of an operation that can fail for want of space. `Draft` is what a
`DefaultPortableWriter` has in its output: the positions in its table and the bytes behind
it.
-/

namespace HazelcastClient.Serialization.Portable

open Compact (Name Output intMax)

open RandomAccess List Compact

/-! ## Steps -/

/-- The operation gives `v` if it can, which needs `good` and is certain if it `fits` as
well. -/
structure Runs {σ : Type} (res : Result σ) (fits good : Prop) (v : σ) : Prop where
  ok : fits → good → res = .ok v
  of_ok : ∀ {v'}, res = .ok v' → good ∧ v' = v

namespace Runs

variable {σ τ : Type} {res : Result σ} {fits fits' good good' : Prop} {v : σ} {f : σ → Result τ}

theorem pure (v : σ) : Runs (.ok v) fits True v where
  ok := fun _ _ => rfl
  of_ok := fun h => ⟨trivial, (Except.ok.inj h).symm⟩

theorem error (e : Failure) : Runs (.error e) fits False v where
  ok := fun _ h => h.elim
  of_ok := fun h => by cases h

theorem bind {u : τ} (h : Runs res fits good v) (hfits : fits' → fits)
    (hf : Runs (f v) fits' good' u) : Runs (res >>= f) fits' (good ∧ good') u where
  ok := by
    intro hfit hgood
    rw [h.ok (hfits hfit) hgood.1]
    exact hf.ok hfit hgood.2
  of_ok := by
    intro v' hv'
    cases hres : res with
    | error e =>
      rw [hres] at hv'
      cases hv'
    | ok a =>
      obtain ⟨hgood, rfl⟩ := h.of_ok hres
      rw [hres] at hv'
      obtain ⟨hgood', hu⟩ := hf.of_ok hv'
      exact ⟨⟨hgood, hgood'⟩, hu⟩

theorem bind_true {u : τ} (h : Runs res fits True v) (hfits : fits' → fits)
    (hf : Runs (f v) fits' good' u) : Runs (res >>= f) fits' good' u where
  ok := fun hfit hgood => (h.bind hfits hf).ok hfit ⟨trivial, hgood⟩
  of_ok := fun hv' => ⟨((h.bind hfits hf).of_ok hv').1.2, ((h.bind hfits hf).of_ok hv').2⟩

theorem mono (h : Runs res fits good v) (hfits : fits' → fits) (hgood : good ↔ good') :
    Runs res fits' good' v where
  ok := fun hfit hgood' => h.ok (hfits hfit) (hgood.mpr hgood')
  of_ok := fun hv' => ⟨hgood.mp (h.of_ok hv').1, (h.of_ok hv').2⟩

theorem forget (h : Runs res fits (good ∧ fits) v) : Runs res fits good v where
  ok := fun hfit hgood => h.ok hfit ⟨hgood, hfit⟩
  of_ok := fun hv' => ⟨(h.of_ok hv').1.1, (h.of_ok hv').2⟩

end Runs

theorem runs_of_appends {write : Output → Compact.Result Output} {bytes : List UInt8}
    (h : Compact.Appends write bytes) (out : Output) :
    Runs (ofStream (write out)) (out.length + bytes.length ≤ intMax) True (out ++ bytes) := by
  rcases h out with hok | ⟨hlarge, e, herr⟩
  · rw [hok]
    exact Runs.pure _
  · rw [herr]
    exact ⟨fun hfits => absurd hfits (Nat.not_le.mpr hlarge), fun hok => by cases hok⟩

theorem runs_toInt (n : ℕ) :
    Runs (ofStream (toInt n)) (n ≤ intMax) (True ∧ n ≤ intMax) n := by
  by_cases h : n ≤ intMax
  · rw [toInt_of_le h]
    exact (Runs.pure n).mono id (by simp [h])
  · rw [toInt_of_lt (by omega)]
    exact ⟨fun h' => absurd h' h, fun h' => by cases h'⟩

theorem flatMap_zero (order : ByteOrder) (n : ℕ) :
    (List.replicate n 0).flatMap (order.bytes 4) = List.replicate (n * 4) 0 := by
  have hzero : order.bytes 4 0 = List.replicate 4 0 := by cases order <;> decide
  induction n with
  | zero => rfl
  | succ n ih =>
    rw [replicate_succ, flatMap_cons, ih, hzero, replicate_append_replicate,
      Nat.succ_mul, Nat.add_comm]

section Values

variable {order : ByteOrder}

theorem appends_bind {write write' : Output → Compact.Result Output} {bytes bytes' : List UInt8}
    (h : Compact.Appends write bytes) (h' : Compact.Appends write' bytes') :
    Compact.Appends (fun out => write out >>= write') (bytes ++ bytes') := by
  intro out
  dsimp only
  rw [length_append, ← Nat.add_assoc]
  rcases h out with hok | ⟨hlarge, e, herr⟩
  · rcases h' (out ++ bytes) with hok' | ⟨hlarge', e, herr⟩
    · left
      rw [hok, ← append_assoc]
      exact hok'
    · right
      rw [length_append] at hlarge'
      exact ⟨hlarge', e, by rw [hok]; exact herr⟩
  · exact .inr ⟨by omega, e, by rw [herr]; rfl⟩

theorem appends_writeItem (order : ByteOrder) (i : Item) (v : i.Val) :
    Compact.Appends (writeItem order i v) (itemBytes order i v) := by
  cases i with
  | primitive p | char => exact appends_append _
  | string => exact appends_writeBytes v

theorem appends_writeItems (order : ByteOrder) (i : Item) (vs : List i.Val) :
    Compact.Appends (writeItems order i vs) (vs.flatMap (itemBytes order i)) := by
  induction vs with
  | nil =>
    intro out
    left
    rw [flatMap_nil, append_nil]
    rfl
  | cons v vs ih => exact appends_bind (appends_writeItem order i v) ih

theorem itemBytes_ne_nil (order : ByteOrder) (i : Item) (v : i.Val) :
    0 < (itemBytes order i v).length := by
  cases i with
  | primitive p =>
    rw [itemBytes, primitiveBytes_length]
    cases p with
    | boolean => exact Nat.one_pos
    | numeric n => cases n <;> decide
  | char =>
    rw [itemBytes, ByteOrder.bytes_length]
    decide
  | string =>
    rw [itemBytes, length_append, storeInt32_length]
    omega

theorem length_le_flatMap (order : ByteOrder) (i : Item) (vs : List i.Val) :
    vs.length ≤ (vs.flatMap (itemBytes order i)).length := by
  induction vs with
  | nil => exact Nat.zero_le _
  | cons v vs ih =>
    have hv := itemBytes_ne_nil order i v
    rw [flatMap_cons, length_append, length_cons]
    omega

theorem writeSimple_some (i : Item) (vs : List i.Val) (out : Output) :
    writeSimple order (.array i) (some vs) out = (do
      let len ← toInt vs.length
      writeItems order i vs (out ++ storeInt32 order (.ofNat len))) := rfl

theorem appends_writeSimple (order : ByteOrder) (s : Simple) (v : s.Val) :
    Compact.Appends (writeSimple order s v) (simpleBytes order s v) := by
  cases s with
  | single i => exact appends_writeItem order i v
  | char16 => exact appends_append _
  | array i =>
    cases v with
    | none => exact appends_append _
    | some vs =>
      intro out
      rw [writeSimple_some]
      by_cases h : vs.length ≤ intMax
      · rw [toInt_of_le h]
        exact appends_bind (appends_append (storeInt32 order (.ofNat vs.length)))
          (appends_writeItems order i vs) out
      · have hlen := length_le_flatMap order i vs
        rw [toInt_of_lt (by omega)]
        refine .inr ⟨?_, _, rfl⟩
        rw [simpleBytes, length_append]
        omega

end Values

/-! ## The output of a writer -/

/-- The positions in the table of a writer, and the bytes behind it. -/
structure Draft where
  slots : List ℕ
  body : List UInt8

namespace Draft

variable (order : ByteOrder) (n : ℕ) (d : Draft) (more : List UInt8)

/-- The bytes of the draft of an object with `n` fields; the final position is not there yet. -/
def bytes (n : ℕ) (d : Draft) : List UInt8 :=
  storeInt32 order 0 ++ storeInt32 order (.ofNat n) ++ d.slots.flatMap (order.bytes 4) ++ d.body

def writer (cd : ClassDefinition) (ctx : Context) (base : Output) (written : List Name)
    (d : Draft) : Writer where
  cd := cd
  context := ctx
  out := base ++ d.bytes order cd.getFieldCount
  start := base.length
  offset := base.length + 8
  writtenFields := written

def append (d : Draft) (more : List UInt8) : Draft := ⟨d.slots, d.body ++ more⟩

def setSlot (d : Draft) (i pos : ℕ) : Draft := ⟨d.slots.set i pos, d.body⟩

def length (d : Draft) : ℕ := 8 + d.slots.length * 4 + d.body.length

/-- The draft with the header of another field, which has the number `j`. -/
def header (d : Draft) (start j : ℕ) (name : Name) (type : FieldType) : Draft :=
  (d.setSlot j (start + d.length)).append (Writer.fieldHeader order name type)

theorem bytes_length : (d.bytes order n).length = d.length := by
  simp only [bytes, length, length_append, storeInt32_length, flatMap_bytes_length]

theorem bytes_append : (d.append more).bytes order n = d.bytes order n ++ more := by
  simp only [bytes, append, append_assoc]

@[simp] theorem length_append (d : Draft) (more : List UInt8) :
    (d.append more).length = d.length + more.length := by
  simp only [append, length, List.length_append, Nat.add_assoc]

@[simp] theorem length_setSlot (d : Draft) (i pos : ℕ) : (d.setSlot i pos).length = d.length := by
  simp only [setSlot, length, length_set]

@[simp] theorem length_header (d : Draft) (start j : ℕ) (name : Name) (type : FieldType) :
    (d.header order start j name type).length = d.length + (name.length + 3) := by
  rw [header, length_append, length_setSlot, fieldHeader_length]

theorem append_append (more more' : List UInt8) :
    (d.append more).append more' = d.append (more ++ more') := by
  simp only [append, append_assoc]

theorem bytes_setSlot {i : ℕ} (hi : i < d.slots.length) (pos : ℕ) (base : Output) :
    overwrite (base ++ d.bytes order n) (base.length + 8 + i * 4) (order.bytes 4 pos) =
      base ++ (d.setSlot i pos).bytes order n := by
  have h := overwrite_table (order.bytes_length 4)
    (base ++ (storeInt32 order 0 ++ storeInt32 order (.ofNat n))) d.body d.slots hi pos
  have hlen : (base ++ (storeInt32 order 0 ++ storeInt32 order (.ofNat n))).length =
      base.length + 8 := by simp
  rw [hlen] at h
  simpa only [bytes, setSlot, append_assoc] using h

variable {order} {cd : ClassDefinition} {ctx : Context} {base : Output} {written : List Name}
  {d : Draft} {i : ℕ}

theorem writer_out_length :
    (d.writer order cd ctx base written).out.length = base.length + d.length := by
  rw [writer, List.length_append, bytes_length]

theorem writer_append :
    (d.writer order cd ctx base written).append more =
      (d.append more).writer order cd ctx base written := by
  simp only [Writer.append, writer, bytes_append, append_assoc]

theorem runs_append {write : Output → Compact.Result Output} {bytes : List UInt8}
    (h : Compact.Appends write bytes) :
    Runs (ofStream (write (d.writer order cd ctx base written).out) >>= fun out =>
        .ok { d.writer order cd ctx base written with out := out })
      (base.length + d.length + bytes.length ≤ intMax) True
      ((d.append bytes).writer order cd ctx base written) := by
  have hstep := runs_of_appends h (d.writer order cd ctx base written).out
  rw [writer_out_length] at hstep
  refine hstep.bind_true id ?_
  rw [← writer_append]
  exact Runs.pure _

theorem runs_writePosition (w : Writer) {index : ℕ} (h : index + 4 ≤ w.out.length) :
    Runs (w.writePosition order index) (w.out.length ≤ intMax) (True ∧ w.out.length ≤ intMax)
      { w with out := overwrite w.out index (order.bytes 4 w.out.length) } := by
  refine ((runs_toInt w.out.length).bind id ?_).mono id (and_iff_left trivial)
  rcases writeAt_cases order w.out.length h with hok | ⟨hlarge, e, herr⟩
  · rw [hok]
    exact Runs.pure _
  · rw [herr]
    exact ⟨fun hfits => absurd hfits (Nat.not_le.mpr hlarge), fun hok => by cases hok⟩

theorem runs_writeSlot (hi : i < d.slots.length) :
    Runs ((d.writer order cd ctx base written).writePosition order (base.length + 8 + i * 4))
      (base.length + d.length ≤ intMax) True
      ((d.setSlot i (base.length + d.length)).writer order cd ctx base written) := by
  have hroom : base.length + 8 + i * 4 + 4 ≤
      (d.writer order cd ctx base written).out.length := by
    rw [writer_out_length, length]
    omega
  have h : Runs ((d.writer order cd ctx base written).writePosition order _) _ _ _ :=
    (runs_writePosition _ hroom).forget
  rw [writer_out_length] at h
  have hout : overwrite (d.writer order cd ctx base written).out (base.length + 8 + i * 4)
      (order.bytes 4 (base.length + d.length)) =
        base ++ (d.setSlot i (base.length + d.length)).bytes order cd.getFieldCount :=
    bytes_setSlot order cd.getFieldCount d hi _ base
  rw [hout] at h
  exact h

end Draft

end HazelcastClient.Serialization.Portable
