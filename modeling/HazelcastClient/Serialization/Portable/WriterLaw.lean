import HazelcastClient.Serialization.Portable.Draft
import HazelcastClient.Serialization.Portable.Schema

/-!
# What the writer writes

In a context that has the definitions of all classes the writer appends the bytes of the
format, unless a null pointer is passed to `write_portable` or the output gets too large for
an `int`.
-/

namespace HazelcastClient.Serialization.Portable

open Compact (Name Output intMax)

open Draft (length_header setSlot writer_append)

open RandomAccess Layout List Writer Values Runs

/-! ## Fields -/

section Fields

variable {order : ByteOrder} {Ty : Type} {cls : Ty → Class Ty} {version : Ty → Int32}
  {R : Ty → Type} {nested : Writing R} {format : Format R} {good : (t : Ty) → R t → Prop}
  {ctx : Context} {u : Ty}

/-- No null pointer is passed to `write_portable`. -/
def Kind.Good (good : (t : Ty) → R t → Prop) : (k : Kind Ty) → k.Val R → Prop
  | .simple _, _ => True
  | .portable _ style, none => style = .writeNullPortable
  | .portable t _, some r => good t r
  | .portableArray _, none => True
  | .portableArray t, some rs => ∀ r ∈ rs, good t r

/-- Nested objects are written as the format has it, and only those that are `good`. -/
def WritesNested (nested : Writing R) (format : Format R) (good : (t : Ty) → R t → Prop)
    (cls : Ty → Class Ty) (version : Ty → Int32) (ctx : Context) : Prop :=
  ∀ {t : Ty} (r : R t) (out : Output),
    Runs (nested.writeWith r (definition cls version t) ctx out)
      (out.length + format.size r ≤ intMax) (good t r) (out ++ format.bytes r out.length, ctx)

theorem runs_writeElements (hnested : WritesNested nested format good cls version ctx) {t : Ty}
    (rs : List (R t)) (front : Output) (done : List ℕ) (elements : List UInt8) (w : Writer)
    (hctx : w.context = ctx)
    (hout : w.out = front ++ (done ++ replicate rs.length 0).flatMap (order.bytes 4) ++
      elements) :
    Runs (writeElements order nested (definition cls version t)
        (front.length + done.length * 4) rs w)
      (w.out.length + total format.size rs ≤ intMax) (∀ r ∈ rs, good t r)
      { w with out := front ++
          (done ++ (place format.size w.out.length rs).map Prod.snd).flatMap (order.bytes 4) ++
          elements ++ elementBytes format rs w.out.length } := by
  induction rs generalizing done elements w with
  | nil =>
    have hsame : front ++ (done ++ (place format.size w.out.length ([] : List (R t))).map
        Prod.snd).flatMap (order.bytes 4) ++ elements ++
          elementBytes format ([] : List (R t)) w.out.length = w.out := by
      rw [hout]
      simp [elementBytes]
    rw [hsame]
    exact (pure w).mono id (by simp)
  | cons r rs ih =>
    set pos := w.out.length with hpos
    have hlen : pos = front.length + (done.length + (rs.length + 1)) * 4 + elements.length := by
      rw [hpos, hout]
      simp only [length_append, flatMap_bytes_length, length_cons,
        length_replicate]
    have hput : overwrite w.out (front.length + done.length * 4) (order.bytes 4 pos) =
        front ++ (done ++ [pos] ++ replicate rs.length 0).flatMap (order.bytes 4) ++
          elements := by
      rw [hout, overwrite_table (order.bytes_length 4) _ _ _ (by simp), length_cons,
        replicate_succ, set_append_right _ _ (Nat.le_refl _), Nat.sub_self,
        set_cons_zero, append_assoc done, singleton_append]
    have hputLen : (overwrite w.out (front.length + done.length * 4)
        (order.bytes 4 pos)).length = pos := by
      rw [overwrite_length (by rw [ByteOrder.bytes_length]; omega)]
    have hstep : Runs (w.writePosition order (front.length + done.length * 4)) _ _ _ :=
      (Draft.runs_writePosition w (by omega)).forget
    rw [← hpos] at hstep
    have hobject := hnested r (overwrite w.out (front.length + done.length * 4)
      (order.bytes 4 pos))
    rw [hputLen] at hobject
    have hrest := ih (done ++ [pos]) (elements ++ format.bytes r pos)
      { w with
        out := overwrite w.out (front.length + done.length * 4) (order.bytes 4 pos) ++
          format.bytes r pos }
      hctx (by rw [hput]; simp only [append_assoc])
    dsimp only at hrest
    rw [length_append, length_append, hputLen, format.length, length_singleton]
      at hrest
    have hindex : front.length + (done.length + 1) * 4 = front.length + done.length * 4 + 4 := by
      omega
    have hbytes : front ++ (done ++ [pos] ++ (place format.size (pos + format.size r) rs).map
        Prod.snd).flatMap (order.bytes 4) ++ (elements ++ format.bytes r pos) ++
          elementBytes format rs (pos + format.size r) =
        front ++ (done ++ (place format.size pos (r :: rs)).map Prod.snd).flatMap
          (order.bytes 4) ++ elements ++ elementBytes format (r :: rs) pos := by
      simp only [place, map_cons, elementBytes, flatMap_cons, append_assoc,
        singleton_append]
    rw [hindex, hbytes] at hrest
    have htotal := total_cons format.size r rs
    subst hctx
    refine hstep.bind_true (fun hfits => by omega) ?_
    refine (hobject.bind (fun hfits => by omega) (hrest.mono (fun hfits => by omega) Iff.rfl)).mono
      id ?_
    exact forall_mem_cons.symm

theorem Draft.runs_elements (order : ByteOrder)
    (hnested : WritesNested nested format good cls version ctx) (cd : ClassDefinition)
    (base : Output) (written : List Name) (d : Draft) (rs : List (R u)) :
    Runs (writeElements order nested (definition cls version u)
        (d.writer order cd ctx base written).out.length rs
        { d.writer order cd ctx base written with
          out := (d.writer order cd ctx base written).out ++ replicate (rs.length * 4) 0 })
      (base.length + d.length + rs.length * 4 + total format.size rs ≤ intMax)
      (∀ r ∈ rs, good u r)
      ((d.append (tableBytes order format rs (base.length + d.length + rs.length * 4) ++
        elementBytes format rs (base.length + d.length + rs.length * 4))).writer order cd ctx base
          written) := by
  set w := d.writer order cd ctx base written with hw
  have hlen : w.out.length = base.length + d.length := Draft.writer_out_length
  have hzero : w.out ++ replicate (rs.length * 4) 0 =
      w.out ++ ([] ++ replicate rs.length 0).flatMap (order.bytes 4) ++ [] := by
    rw [nil_append, append_nil, flatMap_zero]
  have h := runs_writeElements hnested rs w.out [] []
    { w with out := w.out ++ List.replicate (rs.length * 4) 0 } rfl hzero
  dsimp only at h
  rw [List.length_append, List.length_replicate, hlen] at h
  have htable : ∀ pos, ((place format.size pos rs).map Prod.snd).flatMap (order.bytes 4) =
      tableBytes order format rs pos := fun pos => flatMap_map ..
  rw [nil_append, htable, append_nil, length_nil, Nat.zero_mul, Nat.add_zero] at h
  rw [← writer_append, ← hw, hlen]
  simpa only [Writer.append, append_assoc] using h

/-- The draft with another field, which has the number `j`. -/
def Draft.put (order : ByteOrder) (cls : Ty → Class Ty) (format : Format R) (start : ℕ) (d : Draft)
    (j : ℕ) (e : Entry R) : Draft :=
  (d.setSlot j (start + d.length)).append (entryBytes order cls format e (start + d.length))

theorem Draft.header_append (order : ByteOrder) (cls : Ty → Class Ty) (format : Format R)
    (start : ℕ) (d : Draft) (j : ℕ) (e : Entry R) :
    (d.header order start j e.name e.kind.fieldType).append (payloadBytes order cls format e.kind
      e.value (start + (d.header order start j e.name e.kind.fieldType).length)) =
        d.put order cls format start j e := by
  rw [length_header, ← Nat.add_assoc]
  simp only [Draft.header, Draft.put, Draft.append, entryBytes, append_assoc]

theorem Draft.append_portable (start : ℕ) {d first second : Draft} (style : NullStyle) (r : R u)
    (hfirst : first = d.append (0 :: ids order cls u))
    (hsecond : second = (first.append (format.bytes r (start + first.length))).append
      (ids order cls u)) :
    second.append (format.bytes r (start + second.length)) =
      d.append (payloadBytes order cls format (.portable u style) (some r) (start + d.length)) := by
  have hlen : start + first.length = start + d.length + 9 := by
    rw [hfirst, Draft.length_append, length_cons, ids_length]
    omega
  have hlen' : start + second.length = start + d.length + 9 + format.size r + 8 := by
    rw [hsecond, Draft.length_append, Draft.length_append, ids_length, format.length]
    omega
  rw [hlen', hsecond, hlen, hfirst]
  simp only [Draft.append, payloadBytes, append_assoc, cons_append]

section Positions

variable {t : Ty} {d : Draft} {base : Output} {written : List Name} {j : ℕ} {name : Name}
  {k : Kind Ty} (hj : (cls t).fields[j]? = some (name, k))
  (hslots : d.slots.length = (cls t).fields.length + 1) (hnew : name ∉ written)

include hj hslots hnew

theorem runs_setPosition (type : FieldType) :
    Runs ((d.writer order (definition cls version t) ctx base written).setPosition order name type)
      (base.length + d.length ≤ intMax) True
      (fieldDefinition cls version (version t) j (name, k),
        (d.header order base.length j name type).writer order (definition cls version t) ctx base
          (name :: written)) := by
  have hfind : (definition cls version t).getField name =
      .ok (fieldDefinition cls version (version t) j (name, k)) := by
    rw [ClassDefinition.getField, find_definition hj]
  have hslot : j < d.slots.length := by
    have := (List.getElem?_eq_some_iff.mp hj).1
    omega
  have hout : ∀ d' : Draft, { d'.writer order (definition cls version t) ctx base written with
      out := base ++ d'.bytes order (definition cls version t).getFieldCount ++
        fieldHeader order name type
      writtenFields := name :: written } =
        (d'.append (fieldHeader order name type)).writer order (definition cls version t)
          ctx base (name :: written) := fun d' => by
    simp only [Draft.writer, Draft.bytes_append, append_assoc]
  unfold setPosition
  change Runs ((definition cls version t).getField name >>= _) _ _ _
  rw [hfind]
  change Runs (if name ∈ written then _ else _) _ _ _
  rw [if_neg hnew]
  refine (Draft.runs_writeSlot hslot).bind_true id ?_
  rw [Draft.header, ← hout]
  exact pure _

theorem runs_writeSimple (s : Simple) (v : s.Val) :
    Runs ((d.writer order (definition cls version t) ctx base written).write order name s v)
      (base.length + d.length + entrySize order format ⟨name, .simple s, v⟩ ≤ intMax) True
      ((d.put order cls format base.length j ⟨name, .simple s, v⟩).writer order
        (definition cls version t) ctx base (name :: written)) := by
  refine (runs_setPosition hj hslots hnew s.fieldType).bind_true (fun hfits => by omega) ?_
  rw [← Draft.header_append]
  refine (Draft.runs_append (appends_writeSimple order s v)).mono (fun hfits => ?_) Iff.rfl
  rw [length_header]
  rw [entrySize, payloadSize] at hfits
  dsimp only at hfits
  omega

theorem runs_writeNullPortable (u : Ty) (style : NullStyle) :
    Runs ((d.writer order (definition cls version t) ctx base written).writeNullPortable order cls
        name u)
      (base.length + d.length + entrySize order format ⟨name, .portable u style, none⟩ ≤ intMax)
      True
      ((d.put order cls format base.length j ⟨name, .portable u style, none⟩).writer order
        (definition cls version t) ctx base (name :: written)) := by
  refine (runs_setPosition hj hslots hnew .portable).bind_true (fun hfits => by omega) ?_
  rw [← Draft.header_append, ← writer_append]
  exact pure _

end Positions

section Nested

variable (hdefs : Defines cls ctx)
  (hnested : WritesNested nested format good cls (versionIn cls ctx) ctx)

include hdefs

theorem lookupOrRegister_defined (r : R u) :
    lookupOrRegister cls nested r ctx = .ok (definition cls (versionIn cls ctx) u, ctx) := by
  have h := hdefs u
  rw [versionIn] at h
  rw [lookupOrRegister, h]

include hnested

theorem runs_writeInternal {cd : ClassDefinition} {d : Draft} {base : Output} {written : List Name}
    (r : R u) :
    Runs ((d.writer order cd ctx base written).writeInternal cls nested r)
      (base.length + d.length + format.size r ≤ intMax) (good u r)
      ((d.append (format.bytes r (base.length + d.length))).writer order cd ctx base written) := by
  have hobject := hnested r (d.writer order cd ctx base written).out
  rw [Draft.writer_out_length] at hobject
  have hlookup : lookupOrRegister cls nested r (d.writer order cd ctx base written).context =
      .ok (definition cls (versionIn cls ctx) u, ctx) := lookupOrRegister_defined hdefs r
  unfold writeInternal
  rw [hlookup]
  refine (hobject.bind id ?_).mono id (and_iff_left trivial)
  rw [← writer_append]
  exact pure _

variable {t : Ty} {d : Draft} {base : Output} {written : List Name} {j : ℕ} {name : Name}
  {u : Ty} (hslots : d.slots.length = (cls t).fields.length + 1) (hnew : name ∉ written)

include hslots hnew

theorem runs_writePortable {style : NullStyle}
    (hj : (cls t).fields[j]? = some (name, .portable u style)) (r : R u) :
    Runs ((d.writer order (definition cls (versionIn cls ctx) t) ctx base written).writePortable
        order cls nested name (some r))
      (base.length + d.length + entrySize order format ⟨name, .portable u style, some r⟩ ≤ intMax)
      (good u r)
      ((d.put order cls format base.length j ⟨name, .portable u style, some r⟩).writer order
        (definition cls (versionIn cls ctx) t) ctx base (name :: written)) := by
  have hcheck : checkPortableAttributes cls u (fieldDefinition cls (versionIn cls ctx)
      (versionIn cls ctx t) j (name, .portable u style)) = .ok () := by
    simp [checkPortableAttributes, fieldDefinition, Kind.target]
  refine (runs_setPosition hj hslots hnew .portable).bind_true (fun hfits => by omega) ?_
  have hput := Draft.header_append order cls format base.length d j
    ⟨name, .portable u style, some r⟩
  dsimp only [Kind.fieldType] at hput ⊢
  set head := d.header order base.length j name .portable with hhead
  have hlen : head.length = d.length + (name.length + 3) := length_header ..
  rw [hcheck, writer_append]
  refine ((runs_writeInternal hdefs hnested r).bind ?_ ?_).mono id and_self_iff
  · intro hfits
    rw [entrySize, payloadSize] at hfits
    rw [Draft.length_append, length_cons, ids_length]
    dsimp only at hfits
    omega
  · rw [writer_append, ← hput, ← Draft.append_portable base.length style r rfl rfl]
    refine (runs_writeInternal hdefs hnested r).mono ?_ Iff.rfl
    intro hfits
    rw [entrySize, payloadSize] at hfits
    simp only [Draft.length_append, length_cons, ids_length, format.length]
    dsimp only at hfits
    omega

theorem runs_writePortableArray (hj : (cls t).fields[j]? = some (name, .portableArray u))
    (values : Option (List (R u))) :
    Runs ((d.writer order (definition cls (versionIn cls ctx) t) ctx base
        written).writePortableArray order cls nested name u values)
      (base.length + d.length + entrySize order format ⟨name, .portableArray u, values⟩ ≤ intMax)
      (Kind.Good good (.portableArray u) values)
      ((d.put order cls format base.length j ⟨name, .portableArray u, values⟩).writer order
        (definition cls (versionIn cls ctx) t) ctx base (name :: written)) := by
  have hcheck : checkPortableAttributes cls u (fieldDefinition cls (versionIn cls ctx)
      (versionIn cls ctx t) j (name, .portableArray u)) = .ok () := by
    simp [checkPortableAttributes, fieldDefinition, Kind.target]
  refine (runs_setPosition hj hslots hnew .portableArray).bind_true (fun hfits => by omega) ?_
  have hput := Draft.header_append order cls format base.length d j
    ⟨name, .portableArray u, values⟩
  dsimp only [Kind.fieldType] at hput ⊢
  set head := d.header order base.length j name .portableArray with hhead
  have hlen : head.length = d.length + (name.length + 3) := length_header ..
  rw [hcheck, ← hput]
  cases values with
  | none =>
    rw [← writer_append]
    exact pure _
  | some rs =>
    cases rs with
    | nil =>
      have hpayload : payloadBytes order cls format (.portableArray u) (some [])
          (base.length + head.length) = storeInt32 order 0 ++ ids order cls u := by
        simp only [payloadBytes, tableBytes, elementBytes, place_nil, flatMap_nil,
          append_nil]
        rfl
      rw [hpayload, ← writer_append]
      exact (pure _).mono id (by simp [Kind.Good])
    | cons r rs =>
      have hfits : base.length + d.length + entrySize order format ⟨name, .portableArray u,
          some (r :: rs)⟩ = base.length + head.length + 12 + (rs.length + 1) * 4 +
            total format.size (r :: rs) := by
        rw [entrySize, payloadSize, length_cons, hlen]
        dsimp only
        omega
      rw [hfits]
      refine (runs_toInt (rs.length + 1)).forget.bind_true (fun _ => by omega) ?_
      change Runs (lookupOrRegister cls nested r ctx >>= _) _ _ _
      rw [lookupOrRegister_defined hdefs r, writer_append]
      have hmid : base.length + (head.append (storeInt32 order (.ofNat (rs.length + 1)) ++
          ids order cls u)).length = base.length + head.length + 12 := by
        rw [Draft.length_append, length_append, ids_length, storeInt32_length,
          Nat.add_assoc]
      have helements := Draft.runs_elements order hnested
        (definition cls (versionIn cls ctx) t) base (name :: written)
        (head.append (storeInt32 order (.ofNat (rs.length + 1)) ++ ids order cls u))
        (r :: rs)
      rw [hmid, length_cons, Draft.append_append, ← append_assoc] at helements
      exact helements

theorem runs_writeField (order : ByteOrder) (base : Output) {k : Kind Ty}
    (hj : (cls t).fields[j]? = some (name, k)) (v : k.Val R) :
    Runs ((d.writer order (definition cls (versionIn cls ctx) t) ctx base written).writeField
        order cls nested name k v)
      (base.length + d.length + entrySize order format ⟨name, k, v⟩ ≤ intMax) (k.Good good v)
      ((d.put order cls format base.length j ⟨name, k, v⟩).writer order
        (definition cls (versionIn cls ctx) t) ctx base (name :: written)) := by
  cases k with
  | simple s => exact runs_writeSimple hj hslots hnew s v
  | portable u style =>
    cases v with
    | some r =>
      have hcall : ∀ w : Writer, w.writeField order cls nested name (.portable u style)
          (some r) = w.writePortable order cls nested name (some r) := fun w => by
        cases style <;> rfl
      rw [hcall]
      exact runs_writePortable hdefs hnested hslots hnew hj r
    | none =>
      cases style with
      | writeNullPortable =>
        exact (runs_writeNullPortable hj hslots hnew u .writeNullPortable).mono id
          (by simp [Kind.Good])
      | passPointer =>
        refine mono ((runs_setPosition hj hslots hnew .portable).bind_true ?_
          (error _)) id ?_
        · intro hfits
          omega
        · simp [Kind.Good]
  | portableArray u => exact runs_writePortableArray hdefs hnested hslots hnew hj v

end Nested

theorem runs_writeFields (order : ByteOrder) (hdefs : Defines cls ctx)
    (hnested : WritesNested nested format good cls (versionIn cls ctx) ctx) {t : Ty}
    (base : Output) {done rest : List (Name × Kind Ty)} (hfields : (cls t).fields = done ++ rest)
    (values : Values R rest) (positions : List ℕ) (hpositions : positions.length = done.length)
    (body : List UInt8) (written : List Name)
    (hwritten : ∀ name ∈ written, name ∈ done.map Prod.fst) {pos : ℕ}
    (hpos : pos = base.length + (8 + ((cls t).fields.length + 1) * 4 + body.length)) :
    Runs (writeFields order cls nested rest values
        ((⟨positions ++ replicate rest.length 0 ++ [0], body⟩ : Draft).writer order
          (definition cls (versionIn cls ctx) t) ctx base written))
      (pos + total (entrySize order format) (entries rest values) ≤ intMax)
      (∀ e ∈ entries rest values, e.kind.Good good e.value)
      ((⟨positions ++ entryPositions order format (entries rest values) pos ++ [0],
        body ++ entriesBytes order cls format (entries rest values) pos⟩ : Draft).writer order
          (definition cls (versionIn cls ctx) t) ctx base ((rest.map Prod.fst).reverse ++ written)) := by
  induction rest generalizing done positions body written pos with
  | nil =>
    have hnone : entries [] values = ([] : List (Entry R)) := rfl
    simp only [hnone, entryPositions, entriesBytes, place_nil, map_nil, flatMap_nil,
      append_nil, length_nil, replicate_zero, reverse_nil, nil_append]
    exact (pure _).mono id (by simp)
  | cons field rest ih =>
    obtain ⟨name, k⟩ := field
    obtain ⟨v, values⟩ := values
    have hj : (cls t).fields[done.length]? = some (name, k) := by
      rw [hfields, getElem?_append_right (Nat.le_refl _), Nat.sub_self]
      rfl
    have hnew : name ∉ written := by
      intro hmem
      have hnodup := (cls t).nodup
      rw [hfields, map_append, nodup_append] at hnodup
      exact hnodup.2.2 name (hwritten name hmem) name (by simp) rfl
    set e : Entry R := ⟨name, k, v⟩ with he
    set d : Draft := ⟨positions ++ replicate (rest.length + 1) 0 ++ [0], body⟩ with hd
    have hcount : (cls t).fields.length = done.length + (rest.length + 1) := by
      rw [hfields, length_append, length_cons]
    have hslots : d.slots.length = (cls t).fields.length + 1 := by
      simp only [hd, length_append, length_replicate, length_singleton]
      omega
    have hlen : base.length + d.length = pos := by
      rw [hpos, Draft.length, hslots]
    have hput : d.put order cls format base.length done.length e =
        ⟨positions ++ [pos] ++ replicate rest.length 0 ++ [0],
          body ++ entryBytes order cls format e pos⟩ := by
      rw [Draft.put, hlen, setSlot, Draft.append, hd, ← hpositions]
      simp [replicate_succ]
    have hfield := runs_writeField hdefs hnested hslots hnew order base hj v
    rw [← he, hput, hlen] at hfield
    have hfields' : (cls t).fields = (done ++ [(name, k)]) ++ rest := by
      rw [hfields, append_assoc, singleton_append]
    have hpositions' : (positions ++ [pos]).length = (done ++ [(name, k)]).length := by
      rw [length_append, length_append, hpositions, length_singleton,
        length_singleton]
    have hwritten' : ∀ name' ∈ name :: written, name' ∈ (done ++ [(name, k)]).map Prod.fst := by
      intro name' hmem
      rw [map_append, mem_append]
      rcases mem_cons.mp hmem with rfl | hmem
      · exact .inr mem_cons_self
      · exact .inl (hwritten name' hmem)
    have hpos' : pos + entrySize order format e = base.length + (8 +
        ((cls t).fields.length + 1) * 4 + (body ++ entryBytes order cls format e pos).length) := by
      rw [length_append, entryBytes_length, hpos]
      omega
    have hrest := ih hfields' values _ hpositions' _ _ hwritten' hpos'
    have hentries : entries ((name, k) :: rest) (v, values) =
        e :: entries rest values := rfl
    have hslots' : positions ++ [pos] ++ entryPositions order format (entries rest values)
        (pos + entrySize order format e) =
          positions ++ entryPositions order format (e :: entries rest values) pos := by
      simp only [entryPositions, place, map_cons, append_assoc, singleton_append]
    have hbody : body ++ entryBytes order cls format e pos ++ entriesBytes order cls format
        (entries rest values) (pos + entrySize order format e) =
          body ++ entriesBytes order cls format (e :: entries rest values) pos := by
      simp only [entriesBytes, place, flatMap_cons, append_assoc]
    rw [hslots', hbody] at hrest
    have hnames : (((name, k) :: rest).map Prod.fst).reverse ++ written =
        (rest.map Prod.fst).reverse ++ name :: written := by simp
    rw [hentries, total_cons, hnames, forall_mem_cons]
    exact hfield.bind (fun hfits => by omega) (hrest.mono (fun hfits => by omega) Iff.rfl)

end Fields

/-! ## Objects -/

section Objects

variable {order : ByteOrder} {cd : ClassDefinition} {ctx : Context} {base : Output}
  {written : List Name}

theorem writer_new (order : ByteOrder) (cd : ClassDefinition) (ctx : Context) (base : Output) :
    new order cd ctx base =
      (⟨replicate cd.getFieldCount 0 ++ [0], []⟩ : Draft).writer order cd ctx base [] := by
  have htable : (replicate cd.getFieldCount 0 ++ [0]).flatMap (order.bytes 4) =
      replicate ((cd.getFieldCount + 1) * 4) 0 := by
    rw [← flatMap_zero, replicate_succ']
  simp only [new, Draft.writer, Draft.bytes, htable, append_nil, append_assoc]

theorem runs_writeRaw (order : ByteOrder) (ss : List Simple) (values : RawValues ss) (w : Writer) :
    Runs (w.writeRaw order ss values) (w.out.length + (rawBytes order ss values).length ≤ intMax)
      True { w with out := w.out ++ rawBytes order ss values } := by
  induction ss generalizing w with
  | nil =>
    have hnone : rawBytes order [] values = [] := rfl
    rw [hnone, append_nil]
    exact pure w
  | cons s ss ih =>
    obtain ⟨v, values⟩ := values
    have hrest := ih values { w with out := w.out ++ simpleBytes order s v }
    have hbytes : rawBytes order (s :: ss) (v, values) =
        simpleBytes order s v ++ rawBytes order ss values := rfl
    rw [hbytes, length_append]
    dsimp only at hrest
    rw [length_append, append_assoc] at hrest
    exact (runs_of_appends (appends_writeSimple order s v) w.out).bind_true (fun _ => by omega)
      (hrest.mono (fun _ => by omega) Iff.rfl)

theorem runs_finish (order : ByteOrder) (cd : ClassDefinition) (ctx : Context) (base : Output)
    (written : List Name) (raw : Bool) (d : Draft) :
    Runs (finish order { d.writer order cd ctx base written with raw := raw })
      (base.length + d.length ≤ intMax) (True ∧ base.length + d.length ≤ intMax)
      (base ++ order.bytes 4 (base.length + d.length) ++
        (storeInt32 order (.ofNat cd.getFieldCount) ++ d.slots.flatMap (order.bytes 4) ++ d.body),
        ctx) := by
  set w := { d.writer order cd ctx base written with raw := raw } with hw
  have hlen : w.out.length = base.length + d.length := by
    simp only [hw, Draft.writer, length_append, Draft.bytes_length]
  have hout : w.out = base ++ storeInt32 order 0 ++
      (storeInt32 order (.ofNat cd.getFieldCount) ++ d.slots.flatMap (order.bytes 4) ++ d.body) := by
    simp only [hw, Draft.writer, Draft.bytes, append_assoc]
  have hroom : base.length + 4 ≤ w.out.length := by
    rw [hlen, Draft.length]
    omega
  have hsame : (order.bytes 4 w.out.length).length = (storeInt32 order 0).length := by
    rw [ByteOrder.bytes_length, storeInt32_length]
  have hput := overwrite_middle base (storeInt32 order 0) (storeInt32 order
    (.ofNat cd.getFieldCount) ++ d.slots.flatMap (order.bytes 4) ++ d.body) hsame
  rw [← hout] at hput
  rw [← hlen, ← hput]
  refine mono ((Draft.runs_writePosition w hroom).bind id ?_) id (and_iff_left trivial)
  exact pure _

theorem runs_writeRawData (order : ByteOrder) (ctx : Context) (written : List Name)
    (raw : Option (List Simple)) (values : RawValues (raw.getD [])) {positions : List ℕ}
    {body : List UInt8} {pos : ℕ}
    (hpositions : positions.length = cd.getFieldCount)
    (hpos : pos = base.length + (8 + (cd.getFieldCount + 1) * 4 + body.length)) :
    Runs (((⟨positions ++ [0], body⟩ : Draft).writer order cd ctx base written).writeRawData order
        raw values)
      (pos + (rawBytes order (raw.getD []) values).length ≤ intMax) True
      { (⟨positions ++ [if raw.isSome then pos else 0],
          body ++ rawBytes order (raw.getD []) values⟩ : Draft).writer order cd ctx base written with
        raw := raw.isSome } := by
  cases raw with
  | none =>
    have hnone : rawBytes order ((none : Option (List Simple)).getD []) values = [] := rfl
    rw [hnone, append_nil]
    exact pure _
  | some ss =>
    set d : Draft := ⟨positions ++ [0], body⟩ with hd
    have hslots : d.slots.length = cd.getFieldCount + 1 := by
      rw [hd, length_append, hpositions, length_singleton]
    have hlen : base.length + d.length = pos := by rw [Draft.length, hslots, hpos]
    have hset : d.setSlot cd.getFieldCount pos = ⟨positions ++ [pos], body⟩ := by
      rw [setSlot, hd, ← hpositions]
      simp
    have hput : Runs ((d.writer order cd ctx base written).writePosition order _) _ _ _ :=
      Draft.runs_writeSlot (i := cd.getFieldCount) (by omega)
    rw [hlen, hset] at hput
    have hdata := runs_writeRaw order ss values
      { (⟨positions ++ [pos], body⟩ : Draft).writer order cd ctx base written with raw := true }
    have hout : ((⟨positions ++ [pos], body⟩ : Draft).writer order cd ctx base
        written).out.length = pos := by
      rw [Draft.writer_out_length, ← hset, Draft.length_setSlot, hlen]
    have hbody : (⟨positions ++ [pos], body ++ rawBytes order ss values⟩ : Draft).writer order cd
        ctx base written = ((⟨positions ++ [pos], body⟩ : Draft).writer order cd ctx base
          written).append (rawBytes order ss values) := by
      rw [writer_append]
      rfl
    dsimp only at hdata
    rw [hout] at hdata
    have hraw : Runs ((d.writer order cd ctx base written).getRawDataOutput order) _ _ _ :=
      hput.bind_true id (pure _)
    refine hraw.bind_true (fun _ => by omega) ?_
    change Runs _ _ _ { (⟨positions ++ [pos], body ++ rawBytes order ss values⟩ : Draft).writer
      order cd ctx base written with raw := true }
    rw [hbody]
    exact hdata

variable {Ty : Type} {cls : Ty → Class Ty} {R : Ty → Type} {nested : Writing R}
  {format : Format R} {good : (t : Ty) → R t → Prop}

/-- No null pointer is passed to `write_portable` by the serializer of the object. -/
def Obj.Good (good : (t : Ty) → R t → Prop) (t : Ty) (o : Obj cls R t) : Prop :=
  ∀ e ∈ o.entries cls, e.kind.Good good e.value

theorem runs_writeObject (order : ByteOrder) (hdefs : Defines cls ctx)
    (hnested : WritesNested nested format good cls (versionIn cls ctx) ctx) {t : Ty}
    (o : Obj cls R t) (out : Output) :
    Runs (writeObject order cls nested o (definition cls (versionIn cls ctx) t) ctx out)
      (out.length + objectSize order cls format o ≤ intMax)
      (Obj.Good good t o ∧ out.length + objectSize order cls format o ≤ intMax)
      (out ++ objectBytes order cls format o (versionIn cls ctx t) out.length, ctx) := by
  set cd := definition cls (versionIn cls ctx) t with hcd
  set base := out ++ storeInt32 order cd.version with hbase
  have hcount : cd.getFieldCount = (cls t).fields.length := fieldDefinitions_length
  have hbaseLen : base.length = out.length + 4 := by
    rw [hbase, length_append, storeInt32_length]
  have hfirst : firstField cls t out.length =
      base.length + (8 + ((cls t).fields.length + 1) * 4 + ([] : List UInt8).length) := by
    rw [firstField, hbaseLen, length_nil]
    omega
  have hfields := runs_writeFields order hdefs hnested base (nil_append _).symm o.values
    [] rfl [] [] (by simp) hfirst
  have hes : entries (cls t).fields o.values = o.entries cls := rfl
  rw [nil_append, nil_append, nil_append, append_nil, hes] at hfields
  set first := firstField cls t out.length with hfirstDef
  set body := entriesBytes order cls format (o.entries cls) first with hbody
  have hrawPos : rawPosition order cls format o out.length =
      base.length + (8 + (cd.getFieldCount + 1) * 4 + body.length) := by
    rw [hbody, entriesBytes_length, rawPosition, ← hfirstDef, hfirst, hcount, length_nil]
    omega
  have hpositions : (entryPositions order format (o.entries cls) first).length =
      cd.getFieldCount := by
    rw [entryPositions_length, ← hes, entries_length, hcount]
  set data := rawBytes order ((cls t).raw.getD []) o.raw with hdata
  have hraw := runs_writeRawData order ctx ((cls t).fields.map Prod.fst).reverse (cls t).raw o.raw
    hpositions hrawPos
  have hfinish := runs_finish order cd ctx base ((cls t).fields.map Prod.fst).reverse
    (cls t).raw.isSome ⟨tablePositions order cls format o out.length, body ++ data⟩
  have hfinal : base.length + (⟨tablePositions order cls format o out.length, body ++ data⟩ :
      Draft).length = finalPosition order cls format o out.length := by
    have hlen : (body ++ data).length = body.length + data.length := length_append
    rw [Draft.length, tablePositions_length, finalPosition, hrawPos, hcount, ← hdata, hlen]
    omega
  have hbytes : base ++ order.bytes 4 (finalPosition order cls format o out.length) ++
      (storeInt32 order (.ofNat cd.getFieldCount) ++
        (tablePositions order cls format o out.length).flatMap (order.bytes 4) ++ (body ++ data)) =
      out ++ objectBytes order cls format o (versionIn cls ctx t) out.length := by
    rw [hbase, hcount, objectBytes]
    simp only [append_assoc]
    rfl
  rw [hfinal, hbytes] at hfinish
  rw [← finalPosition_eq]
  have hnew := writer_new order cd ctx base
  rw [hcount] at hnew
  unfold writeObject
  rw [hnew]
  refine (hfields.bind ?_ (hraw.bind_true ?_ hfinish)).mono id (by rw [true_and]; rfl)
  · rw [finalPosition, rawPosition]
    exact fun _ => by omega
  · rw [finalPosition]
    exact id

/-- No null pointer is passed to `write_portable` for any of the objects. -/
def Nested.Good (cls : Ty → Class Ty) : (n : ℕ) → (t : Ty) → Nested cls n t → Prop
  | 0, _, r => Empty.elim r
  | n + 1, t, o => Obj.Good (Nested.Good cls n) t o

instance Kind.decidableGood [∀ t r, Decidable (good t r)] :
    (k : Kind Ty) → (v : k.Val R) → Decidable (k.Good good v)
  | .simple _, _ => isTrue trivial
  | .portable _ style, none => inferInstanceAs (Decidable (style = .writeNullPortable))
  | .portable t _, some r => inferInstanceAs (Decidable (good t r))
  | .portableArray _, none => isTrue trivial
  | .portableArray t, some rs => inferInstanceAs (Decidable (∀ r ∈ rs, good t r))

instance Nested.decidableGood (cls : Ty → Class Ty) :
    (n : ℕ) → (t : Ty) → (o : Nested cls n t) → Decidable (Nested.Good cls n t o)
  | 0, _, r => Empty.elim r
  | n + 1, _, o =>
    haveI := Nested.decidableGood cls n
    inferInstanceAs (Decidable (∀ e ∈ Obj.entries cls o, e.kind.Good (Nested.Good cls n) e.value))

theorem writesNested (order : ByteOrder) (hdefs : Defines cls ctx) (n : ℕ) :
    WritesNested (writing order cls n) (nestedFormat order cls (versionIn cls ctx) n)
      (Nested.Good cls n) cls (versionIn cls ctx) ctx := by
  induction n with
  | zero =>
    intro t r
    exact Empty.elim r
  | succ n ih =>
    intro t o out
    exact (runs_writeObject order hdefs ih o out).forget

/-- In a context with the definitions of all classes `write` appends the ids and the bytes of
the object. -/
theorem runs_write (order : ByteOrder) (hdefs : Defines cls ctx) {n : ℕ} {t : Ty}
    (o : Nested cls n t) (out : Output) :
    Runs (write order cls o ctx out)
      (out.length + 8 + (nestedFormat order cls (versionIn cls ctx) n).size o ≤ intMax)
      (Nested.Good cls n t o ∧
        out.length + 8 + (nestedFormat order cls (versionIn cls ctx) n).size o ≤ intMax)
      (out ++ ids order cls t ++
        (nestedFormat order cls (versionIn cls ctx) n).bytes o (out.length + 8), ctx) := by
  cases n with
  | zero => exact Empty.elim o
  | succ n =>
    have h := runs_writeObject order hdefs (writesNested order hdefs n) o
      (out ++ ids order cls t)
    rw [length_append, ids_length] at h
    unfold write
    rw [lookupOrRegister_defined hdefs o]
    exact h

end Objects

end HazelcastClient.Serialization.Portable
