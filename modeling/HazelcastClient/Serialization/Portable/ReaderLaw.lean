import HazelcastClient.Serialization.Portable.StreamLaw
import HazelcastClient.Serialization.Portable.Schema

/-!
# What the reader reads

What happens to the context while an object is read depends on the definitions that it has
and on those that are found in the stream. `Scan` follows it on the object itself: it gives
the state of a reader after the object, or none if the reader fails. `Yields` says that a
method does what the scan says. The laws of the fields hold for every such scan.
-/

namespace HazelcastClient.Serialization.Portable

open Compact (Name intMax)

open ByteParser RandomAccess Layout List Reading Reader Values Parser

/-! ## The values that are read -/

section Values

variable {Ty : Type} {R : Ty → Type} (nested : (t : Ty) → R t → R t)

/-- The value that is read when `v` was written. -/
def Kind.asRead : (k : Kind Ty) → k.Val R → k.Val R
  | .simple s, v => s.asRead v
  | .portable t _, v => v.map (nested t)
  | .portableArray t, v => v.map (List.map (nested t))

def Values.asRead : (fields : List (Name × Kind Ty)) → Values R fields → Values R fields
  | [], _ => ()
  | (_, k) :: fields, (v, values) => (k.asRead nested v, asRead fields values)

variable (cls : Ty → Class Ty)

def Obj.asRead (t : Ty) (o : Obj cls R t) : Obj cls R t :=
  ⟨Values.asRead nested (cls t).fields o.values, RawValues.asRead _ o.raw⟩

def Nested.asRead : (n : ℕ) → (t : Ty) → Nested cls n t → Nested cls n t
  | 0, _, r => r
  | n + 1, t, o => Obj.asRead (Nested.asRead n) cls t o

end Values

/-! ## Scans -/

/-- The state after an object, or none if the reader fails. -/
def Scan {Ty : Type} (R : Ty → Type) (K : Type) := (t : Ty) → R t → K → Option K

/-- The result of a method of the reader: the value `v` and a context that the state `k`
describes, or a failure if there is no such state. -/
def Yields {T K : Type} (inv : K → Context → Prop) (res : Result (T × Context × ℕ)) (v : T)
    (post : ℕ → Prop) : Option K → Prop
  | none => ∃ e, res = .error e
  | some k => ∃ ctx pos, res = .ok (v, ctx, pos) ∧ inv k ctx ∧ post pos

section Yields

variable {T U K : Type} {inv : K → Context → Prop} {ctx : Context} {data : List UInt8} {pos next : ℕ}
  {v : T} {u : U} {post post' : ℕ → Prop} {state : Option K} {p : Reading T} {f : T → Reading U}
  {ctx' : Context}

theorem Reading.bind_of_ok (h : p ctx data pos = .ok (v, ctx', next)) :
    (p >>= f) ctx data pos = f v ctx' data next := by
  change (p ctx data pos).bind _ = _
  rw [h]
  rfl

theorem Reading.bind_lift_ok {p : Input T} (h : p data pos = .ok (v, next)) :
    (lift p >>= f) ctx data pos = f v ctx data next := by
  change ((p data pos).map fun r => (r.1, ctx, r.2)).bind _ = _
  rw [h]
  rfl

theorem Reading.bind_lift_error {p : Input T} {e : Failure} (h : p data pos = .error e) :
    (lift p >>= f) ctx data pos = .error e := by
  change ((p data pos).map fun r => (r.1, ctx, r.2)).bind _ = _
  rw [h]
  rfl

theorem Reading.bind_onContext_ok {f : Context → Result (T × Context)} {g : T → Reading U}
    (h : f ctx = .ok (v, ctx')) :
    (onContext f >>= g) ctx data pos = g v ctx' data pos := by
  change ((f ctx).map fun r => (r.1, r.2, pos)).bind _ = _
  rw [h]
  rfl

theorem Yields.pure {k : K} (hinv : inv k ctx) (hpost : post pos) :
    Yields inv ((pure v : Reading T) ctx data pos) v post (some k) :=
  ⟨ctx, pos, rfl, hinv, hpost⟩

theorem Yields.lift {p : Input T} {k : K} (h : p data pos = .ok (v, next)) (hinv : inv k ctx)
    (hpost : post next) : Yields inv (lift p ctx data pos) v post (some k) := by
  refine ⟨ctx, next, ?_, hinv, hpost⟩
  rw [Reading.lift, h]
  rfl

theorem Yields.bind {g : K → Option K} (h : Yields inv (p ctx data pos) v post state)
    (hf : ∀ k ctx' pos', inv k ctx' → post pos' → Yields inv (f v ctx' data pos') u post' (g k)) :
    Yields inv ((p >>= f) ctx data pos) u post' (state.bind g) := by
  cases state with
  | none =>
    obtain ⟨e, herr⟩ := h
    refine ⟨e, ?_⟩
    change (p ctx data pos).bind _ = _
    rw [herr]
    rfl
  | some k =>
    obtain ⟨ctx', pos', hok, hinv, hpost⟩ := h
    rw [bind_of_ok hok]
    exact hf k ctx' pos' hinv hpost

theorem Yields.weaken {res : Result (T × Context × ℕ)} (h : Yields inv res v post state)
    (hpost : ∀ last, post last → post' last) : Yields inv res v post' state := by
  cases state with
  | none => exact h
  | some k =>
    obtain ⟨ctx', last, hok, hinv, hlast⟩ := h
    exact ⟨ctx', last, hok, hinv, hpost last hlast⟩

theorem Yields.map {g : T → U} (h : Yields inv (p ctx data pos) v post state) (hu : g v = u) :
    Yields inv ((p >>= fun w => (Pure.pure (g w) : Reading U)) ctx data pos) u post state := by
  subst hu
  have hbind : Yields inv ((p >>= fun w => (Pure.pure (g w) : Reading U)) ctx data pos) (g v) post
      (state.bind some) :=
    h.bind fun k ctx' pos' hinv hpost => Yields.pure hinv hpost
  rwa [Option.bind_fun_some] at hbind

end Yields

/-! ## Fields -/

section Fields

variable {order : ByteOrder} {Ty : Type} {cls : Ty → Class Ty} {R : Ty → Type} {format : Format R}
  {K : Type} {inv : K → Context → Prop} {r : Reader} {data : List UInt8} {pos i place : ℕ}
  {fd : FieldDefinition} {name : Name} {ctx : Context}

def Admits (cls : Ty → Class Ty) (fd : FieldDefinition) (t : Ty) : Prop :=
  fd.factoryId = (cls t).factoryId ∧ fd.classId = (cls t).classId

instance (cls : Ty → Class Ty) (fd : FieldDefinition) (t : Ty) : Decidable (Admits cls fd t) :=
  inferInstanceAs (Decidable (_ ∧ _))

def Kind.scan (cls : Ty → Class Ty) (scan : Scan R K) (fd : FieldDefinition) :
    (k : Kind Ty) → k.Val R → K → Option K
  | .simple _, _, k => some k
  | .portable t _, none, k => if Admits cls fd t then some k else none
  | .portable t _, some r, k => if Admits cls fd t then scan t r k else none
  | .portableArray _, none, k => some k
  | .portableArray t, some rs, k =>
    if Admits cls fd t then rs.foldlM (fun k r => scan t r k) k else none

/-- The state after the fields that the definition has. -/
def scanEntries (cls : Ty → Class Ty) (scan : Scan R K) (cd : ClassDefinition) :
    List (Entry R) → K → Option K
  | [], k => some k
  | e :: es, k =>
    ((cd.find e.name).bind fun fd => Kind.scan cls scan fd e.kind e.value k).bind
      (scanEntries cls scan cd es)

def Kind.walk (scan : Scan R K) : (k : Kind Ty) → k.Val R → K → Option K
  | .simple _, _, k => some k
  | .portable _ _, none, k => some k
  | .portable t _, some r, k => scan t r k
  | .portableArray _, none, k => some k
  | .portableArray t, some rs, k => rs.foldlM (fun k r => scan t r k) k

/-- The field with the number `i` is there, and the reader goes there if its definition has the
field. A reader that looks for a field in vain fails. -/
structure Reader.Meets (order : ByteOrder) (cls : Ty → Class Ty) (format : Format R)
    (data : List UInt8) (r : Reader) (i : ℕ) (e : Entry R) : Prop where
  found : ∃ place, Found order cls format data r.offset i e place
  knows : ∀ fd, r.cd.find e.name = some fd → r.Knows i e fd
  strict : r.isDefault = true ∨ (r.cd.find e.name).isSome

/-- Objects that stand at their positions are read as the scan says. -/
def ReadsNested (nested : (t : Ty) → Int32 → Int32 → Reading (R t)) (format : Format R)
    (asRead : (t : Ty) → R t → R t) (scan : Scan R K) (inv : K → Context → Prop)
    (cls : Ty → Class Ty) : Prop :=
  ∀ (t : Ty) (r : R t) (k : K) (ctx : Context) (data : List UInt8) (pos : ℕ), inv k ctx →
    At data pos (format.bytes r pos) → pos + format.size r ≤ intMax →
    Yields inv (nested t (cls t).factoryId (cls t).classId ctx data pos) (asRead t r)
      (fun last => last = pos + format.size r) (scan t r k)

section

variable (hfind : r.cd.find name = some fd) {t : Ty} (hat : At data pos (Writer.ids order cls t))
  (hfits : pos + 8 ≤ intMax)

include hfind hat hfits

theorem readIds_at :
    r.readIds order name data pos =
      (checkFactoryAndClass fd (cls t).factoryId (cls t).classId >>= fun _ =>
        (pure ((cls t).factoryId, (cls t).classId) : Input (Int32 × Int32))) data (pos + 8) := by
  obtain ⟨hfactory, hclass⟩ := ids_at hat hfits
  have hget : r.cd.getField name = .ok fd := by rw [ClassDefinition.getField, hfind]
  unfold readIds
  rw [bind_of_ok hfactory, bind_of_ok hclass, hget]

theorem readIds_admitted (hadmits : Admits cls fd t) :
    r.readIds order name data pos = .ok (((cls t).factoryId, (cls t).classId), pos + 8) := by
  rw [readIds_at hfind hat hfits, checkFactoryAndClass, if_neg (not_not.mpr hadmits.1.symm),
    if_neg (not_not.mpr hadmits.2.symm)]
  rfl

theorem readIds_refused (hadmits : ¬ Admits cls fd t) :
    ∃ e, r.readIds order name data pos = .error e := by
  rw [readIds_at hfind hat hfits, checkFactoryAndClass]
  by_cases hfactory : (cls t).factoryId = fd.factoryId
  · have hclass : (cls t).classId ≠ fd.classId := fun hclass =>
      hadmits ⟨hfactory.symm, hclass.symm⟩
    rw [if_neg (not_not.mpr hfactory), if_pos hclass]
    exact ⟨_, rfl⟩
  · rw [if_pos hfactory]
    exact ⟨_, rfl⟩

end

section Nested

variable {nested : (t : Ty) → Int32 → Int32 → Reading (R t)} {asRead : (t : Ty) → R t → R t}
  {scan : Scan R K} (hnested : ReadsNested nested format asRead scan inv cls) {k : K}
  (hinv : inv k ctx) {t : Ty} {kind : Kind Ty} {v : kind.Val R}

include hnested hinv

theorem yields_readPortable {style : NullStyle} {v : Option (R t)}
    (hknows : r.Knows i (⟨name, .portable t style, v⟩ : Entry R) fd)
    (h : Found order cls format data r.offset i ⟨name, .portable t style, v⟩ place) :
    Yields inv (r.readPortable order nested name t ctx data pos) (v.map (asRead t))
      (fun _ => True) (Kind.scan cls scan fd (.portable t style) v k) := by
  have hset : r.setPosition order name .portable data pos =
      .ok ((), place + (name.length + 3)) := setPosition_found hknows h
  set next := place + (name.length + 3) with hnext
  have hparts : PortableAt order cls format data v next := portableAt h.payload h.payload_fits
  have hfits := hparts.fits
  unfold readPortable
  rw [bind_lift_ok hset, bind_lift_ok hparts.flag]
  by_cases hadmits : Admits cls fd t
  · have hread := readIds_admitted hknows.find hparts.ids (by omega) hadmits
    rw [bind_lift_ok hread]
    cases v with
    | none =>
      rw [Kind.scan, if_pos hadmits]
      exact Yields.pure hinv trivial
    | some o =>
      obtain ⟨hobject, hsize⟩ := hparts.object o rfl
      have hread := hnested t o k ctx data (next + 9) hinv hobject hsize
      rw [Kind.scan, if_pos hadmits]
      exact (hread.weaken fun _ _ => trivial).map rfl
  · obtain ⟨e, herr⟩ := readIds_refused hknows.find hparts.ids (by omega) hadmits
    have hscan : Kind.scan cls scan fd (.portable t style) v k = none := by
      cases v <;> exact if_neg hadmits
    rw [hscan, bind_lift_error herr]
    exact ⟨e, rfl⟩

omit hinv in
/-- The objects of an array, which stand at `start` one after another. -/
theorem yields_readElements (rs : List (R t)) {index start : ℕ} (hinv : inv k ctx)
    (htable : At data index (tableBytes order format rs start))
    (hobjects : At data start (elementBytes format rs start))
    (hbehind : index + rs.length * 4 ≤ start) (hfits : start + total format.size rs ≤ intMax) :
    Yields inv (readElements order nested t (cls t).factoryId (cls t).classId rs.length index
        ctx data pos)
      (rs.map (asRead t)) (fun _ => True) (rs.foldlM (fun k r => scan t r k) k) := by
  induction rs generalizing index start ctx pos k with
  | nil => exact Yields.pure hinv trivial
  | cons r rs ih =>
    have htable' : tableBytes order format (r :: rs) start =
        order.bytes 4 start ++ tableBytes order format rs (start + format.size r) := rfl
    have hobjects' : elementBytes format (r :: rs) start =
        format.bytes r start ++ elementBytes format rs (start + format.size r) := rfl
    rw [htable'] at htable
    rw [hobjects'] at hobjects
    rw [total_cons] at hfits
    rw [length_cons] at hbehind
    have hbound := hobjects.bound
    have hfollow : follow order index data pos = .ok ((start : ℤ), start) :=
      follow_of_at htable.left (by omega) (by omega) (by omega)
    have hfirst := hnested t r k ctx data start hinv hobjects.left (by omega)
    have hright := htable.right
    have hright' := hobjects.right
    rw [ByteOrder.bytes_length] at hright
    rw [format.length] at hright'
    rw [length_cons, readElements, bind_lift_ok hfollow, foldlM_cons,
      map_cons]
    refine hfirst.bind fun k' ctx' pos' hinv' _ => ?_
    exact (ih hinv' hright hright' (by omega) (by omega)).map rfl

theorem yields_readPortableArray {v : Option (List (R t))}
    (hknows : r.Knows i (⟨name, .portableArray t, v⟩ : Entry R) fd)
    (h : Found order cls format data r.offset i ⟨name, .portableArray t, v⟩ place) :
    Yields inv (r.readPortableArray order nested name t ctx data pos) (v.map (List.map (asRead t)))
      (fun _ => True) (Kind.scan cls scan fd (.portableArray t) v k) := by
  have hset : ∀ pos, r.setPosition order name .portableArray data pos =
      .ok ((), place + (name.length + 3)) := fun pos => setPosition_found hknows h
  set next := place + (name.length + 3) with hnext
  have hparts : ArrayAt order cls format data v next := arrayAt h.payload h.payload_fits
  have hfits := hparts.fits
  unfold readPortableArray
  -- the length is read twice
  rw [bind_lift_ok (hset pos), bind_lift_ok hparts.length,
    bind_lift_ok (hset _), bind_lift_ok hparts.length]
  cases v with
  | none => exact Yields.pure hinv trivial
  | some rs =>
    obtain ⟨htoInt, htable, hobjects, hsize⟩ := hparts.objects rs rfl
    have hne : arrayLength (some rs) ≠ -1 := fun heq => by
      rw [arrayLength] at heq
      rw [heq] at htoInt
      exact Compact.not_neg_of_toInt htoInt (by decide)
    rw [if_neg hne]
    by_cases hadmits : Admits cls fd t
    · have hread := readIds_admitted hknows.find hparts.ids (by omega) hadmits
      have helements : Yields inv (readElements order nested t (cls t).factoryId
          (cls t).classId rs.length (next + 12) ctx data (next + 12)) _ _ _ :=
        yields_readElements hnested rs hinv htable hobjects (by omega) hsize
      have hposition : position data (next + 4 + 8) = .ok (next + 12, next + 12) := rfl
      rw [Kind.scan, if_pos hadmits, bind_lift_ok hread]
      dsimp only
      rw [bind_lift_ok hposition, arrayLength, htoInt, Int.toNat_natCast]
      exact helements.map rfl
    · obtain ⟨e, herr⟩ := readIds_refused hknows.find hparts.ids (by omega) hadmits
      rw [Kind.scan, if_neg hadmits, bind_lift_error herr]
      exact ⟨e, rfl⟩

theorem yields_readField (hknows : r.Knows i (⟨name, kind, v⟩ : Entry R) fd)
    (h : Found order cls format data r.offset i ⟨name, kind, v⟩ place) :
    Yields inv (r.readField order nested name kind ctx data pos) (kind.asRead asRead v)
      (fun _ => True) (Kind.scan cls scan fd kind v k) := by
  cases kind with
  | simple s =>
    have hread : r.read order name s data pos = .ok (s.asRead v, _) := read_found hknows h
    exact Yields.lift hread hinv trivial
  | portable t style => exact yields_readPortable hnested hinv hknows h
  | portableArray t => exact yields_readPortableArray hnested hinv hknows h

omit hnested hinv in
theorem readField_missing (hraw : r.raw = false) (hfind : r.cd.find name = none)
    (hdefault : r.isDefault = true) :
    ∃ e, r.readField order nested name kind ctx data pos = .error e := by
  have hset : ∀ type, r.setPosition order name type data pos =
      .error (.thrown (.missingField name)) := fun type => setPosition_missing hraw hfind
  cases kind with
  | simple s =>
    have hread : r.read order name s data pos = .error (.thrown (.missingField name)) := by
      rw [Reader.read, if_pos hdefault]
      exact bind_of_error (hset s.fieldType)
    exact ⟨_, by rw [readField, lift, hread]; rfl⟩
  | portable t style => exact ⟨_, bind_lift_error (hset .portable)⟩
  | portableArray t => exact ⟨_, bind_lift_error (hset .portableArray)⟩

theorem yields_meets (hraw : r.raw = false)
    (hmeets : r.Meets order cls format data i (⟨name, kind, v⟩ : Entry R)) :
    Yields inv (r.readField order nested name kind ctx data pos) (kind.asRead asRead v)
      (fun _ => True)
      ((r.cd.find name).bind fun fd => Kind.scan cls scan fd kind v k) := by
  cases hfind : r.cd.find name with
  | none =>
    rcases hmeets.strict with hdefault | hsome
    · exact readField_missing hraw hfind hdefault
    · rw [hfind] at hsome
      cases hsome
  | some fd =>
    obtain ⟨place, hfound⟩ := hmeets.found
    exact yields_readField hnested hinv (hmeets.knows fd hfind) hfound

omit hinv in
theorem yields_readFields {fields : List (Name × Kind Ty)} (values : Values R fields)
    (hraw : r.raw = false) (hinv : inv k ctx)
    (hmeets : ∀ j e, (entries fields values)[j]? = some e →
      r.Meets order cls format data (i + j) e) :
    Yields inv (r.readFields order nested fields ctx data pos) (Values.asRead asRead fields values)
      (fun _ => True) (scanEntries cls scan r.cd (entries fields values) k) := by
  induction fields generalizing i ctx pos k with
  | nil => exact Yields.pure hinv trivial
  | cons field fields ih =>
    obtain ⟨name, kind⟩ := field
    obtain ⟨v, values⟩ := values
    have hrest : ∀ j e, (entries fields values)[j]? = some e →
        r.Meets order cls format data (i + 1 + j) e := by
      intro j e hj
      have h := hmeets (j + 1) e hj
      rwa [← Nat.add_assoc, Nat.add_right_comm] at h
    have hfirst : Yields inv (r.readField order nested name kind ctx data pos)
        (kind.asRead asRead v) _ _ :=
      yields_meets hnested hinv hraw (hmeets 0 ⟨name, kind, v⟩ rfl)
    refine hfirst.bind fun k' ctx' pos' hinv' _ => ?_
    exact (ih values hinv' hrest).map rfl

end Nested

end Fields

/-! ## Objects -/

section Objects

variable {order : ByteOrder} {Ty : Type} {cls : Ty → Class Ty} {R : Ty → Type} {format : Format R}
  {data : List UInt8} {pos : ℕ} {version : Int32} {t : Ty} {o : Obj cls R t} {e : Entry R}
  {K : Type} {inv : K → Context → Prop} {nested : (t : Ty) → Int32 → Int32 → Reading (R t)}
  {asRead : (t : Ty) → R t → R t} {scan : Scan R K} {r : Reader}

theorem entries_getElem? {fields : List (Name × Kind Ty)} {values : Values R fields} {j : ℕ}
    (h : (entries fields values)[j]? = some e) :
    fields[j]? = some (e.name, e.kind) := by
  induction fields generalizing j with
  | nil => cases h
  | cons field fields ih =>
    cases j with
    | zero =>
      obtain rfl := Option.some.inj h
      rfl
    | succ j =>
      have hrest : (entries fields values.2)[j]? = some e := h
      exact ih hrest

/-- The parts of an object that stands at `pos`. -/
structure ObjectAt (order : ByteOrder) (cls : Ty → Class Ty) (format : Format R)
    (data : List UInt8) (o : Obj cls R t) (version : Int32) (pos : ℕ) : Prop where
  version : At data pos (storeInt32 order version)
  final : At data (pos + 4) (order.bytes 4 (finalPosition order cls format o pos))
  count : At data (pos + 8) (storeInt32 order (.ofNat (cls t).fields.length))
  table : At data (pos + 12) ((tablePositions order cls format o pos).flatMap (order.bytes 4))
  entries : At data (firstField cls t pos)
    (entriesBytes order cls format (o.entries cls) (firstField cls t pos))
  raw : At data (rawPosition order cls format o pos) (rawBytes order ((cls t).raw.getD []) o.raw)

theorem objectAt (h : At data pos (objectBytes order cls format o version pos)) :
    ObjectAt order cls format data o version pos := by
  simp only [objectBytes, append_assoc] at h
  have h4 := h.right
  rw [storeInt32_length] at h4
  have h8 := h4.right
  rw [ByteOrder.bytes_length] at h8
  have h12 := h8.right
  rw [storeInt32_length] at h12
  have hfields := h12.right
  rw [flatMap_bytes_length, tablePositions_length] at hfields
  have hraw := hfields.right
  rw [entriesBytes_length] at hraw
  exact ⟨h.left, h4.left, h8.left, h12.left, hfields.left, hraw⟩

theorem readRawData_found (hraw : r.raw = false) (raw : Option (List Simple))
    (values : RawValues (raw.getD [])) {place : ℕ}
    (hslot : raw.isSome → At data (r.offset + r.cd.getFieldCount * 4) (order.bytes 4 place))
    (hbehind : r.offset + r.cd.getFieldCount * 4 + 4 ≤ place)
    (hat : At data place (rawBytes order (raw.getD []) values))
    (hfits : place + (rawBytes order (raw.getD []) values).length ≤ intMax) (before : ℕ) :
    ∃ next, r.readRawData order raw data before = .ok (RawValues.asRead _ values, next) := by
  cases raw with
  | none => exact ⟨before, rfl⟩
  | some ss =>
    have hbound := hat.bound
    have hfollow : follow order (r.offset + r.cd.getFieldCount * 4) data before =
        .ok ((place : ℤ), place) :=
      follow_of_at (hslot rfl) (by omega) (by omega) (by omega)
    have hinput : r.getRawDataInput order data before = .ok ({ r with raw := true }, place) := by
      unfold getRawDataInput
      rw [hraw]
      exact bind_of_ok hfollow
    have hread : readRaw order ss data place = .ok (RawValues.asRead ss values, _) :=
      reads_readRaw ss values data place hat hfits
    exact ⟨_, (bind_of_ok hinput).trans hread⟩

section

variable (h : ObjectAt order cls format data o version pos)
  (hfits : pos + objectSize order cls format o ≤ intMax)

include h hfits

theorem found_of_objectAt {j : ℕ} (hj : (o.entries cls)[j]? = some e) :
    ∃ place, Found order cls format data (pos + 12) j e place := by
  have hfield : (cls t).fields[j]? = some (e.name, e.kind) := entries_getElem? hj
  have hlt : j < (cls t).fields.length := (List.getElem?_eq_some_iff.mp hfield).1
  obtain ⟨place, hplace⟩ :=
    exists_getElem?_place (entrySize order format) (firstField cls t pos) hj
  have hmem := mem_of_getElem? hplace
  have hbounds := bounds_of_mem_place (entrySize order format) hmem
  have hslot : (tablePositions order cls format o pos)[j]? = some place := by
    rw [tablePositions, List.getElem?_append_left, entryPositions, List.getElem?_map, hplace]
    · rfl
    · rw [entryPositions_length, Obj.entries, entries_length]
      exact hlt
  refine ⟨place, ?_, ?_, ?_, ?_, ?_⟩
  · exact h.table.trans (at_flatMap (fun c _ => order.bytes_length 4 c) hslot)
  · exact at_place _ (entryBytes_length order cls format) h.entries hmem
  · rw [firstField] at hbounds
    omega
  · rw [firstField] at hbounds
    rw [objectSize] at hfits
    dsimp only at hbounds
    omega
  · exact (cls t).short _ (mem_of_getElem? hfield)

theorem readRawData_at (hoffset : r.offset = pos + 12)
    (hcount : r.cd.getFieldCount = (cls t).fields.length) (hraw : r.raw = false) (before : ℕ) :
    ∃ next, r.readRawData order (cls t).raw data before =
      .ok (RawValues.asRead _ o.raw, next) := by
  have hplace : rawPosition order cls format o pos =
      pos + 12 + ((cls t).fields.length + 1) * 4 + total (entrySize order format) (o.entries cls) :=
    rfl
  rw [objectSize] at hfits
  refine readRawData_found hraw (cls t).raw o.raw ?_ ?_ h.raw (by omega) before
  · intro hsome
    have hslot : (tablePositions order cls format o pos)[(cls t).fields.length]? =
        some (rawPosition order cls format o pos) := by
      rw [tablePositions, List.getElem?_append_right]
      · rw [entryPositions_length, Obj.entries, entries_length, Nat.sub_self, if_pos hsome]
        rfl
      · rw [entryPositions_length, Obj.entries, entries_length]
    rw [hoffset, hcount]
    exact h.table.trans (at_flatMap (fun c _ => order.bytes_length 4 c) hslot)
  · rw [hoffset, hcount, hplace]
    omega

theorem readerNew_eq (cd : ClassDefinition) (isDefault : Bool) :
    new order cd isDefault data (pos + 4) =
      if cd.getFieldCount = (cls t).fields.length then
        .ok (⟨cd, .ofNat (pos + objectSize order cls format o), pos + 12, isDefault, false⟩, pos + 12)
      else .error (.thrown (.fieldCount (.ofNat (cls t).fields.length) cd.getFieldCount)) := by
  have hheader : ∀ {v : Int32} {pos : ℕ}, At data pos (storeInt32 order v) → pos + 4 ≤ intMax →
      header (readInt32 order) data pos = .ok (v, pos + 4) := by
    intro v pos hat hfits
    rw [header, readInt32_at hat hfits]
    rfl
  have hfinal := h.final
  rw [finalPosition_eq, ← storeInt32_ofNat hfits] at hfinal
  have hsize : 12 + ((cls t).fields.length + 1) * 4 ≤ objectSize order cls format o := by
    rw [objectSize]
    omega
  have hcount : (Int32.ofNat (cls t).fields.length).toInt = (cls t).fields.length :=
    Compact.int32_ofNat_toInt (by omega)
  unfold new
  rw [bind_of_ok (hheader hfinal (by omega)), bind_of_ok (hheader h.count (by omega)),
    hcount]
  by_cases hsame : cd.getFieldCount = (cls t).fields.length
  · rw [if_neg (by rw [hsame]; exact not_not.mpr rfl), if_pos hsame]
    rfl
  · rw [if_pos (by exact_mod_cast Ne.symm hsame), if_neg hsame]
    rfl

end

theorem yields_readBody (hnested : ReadsNested nested format asRead scan inv cls)
    (h : ObjectAt order cls format data o version pos)
    (hfits : pos + objectSize order cls format o ≤ intMax) (hoffset : r.offset = pos + 12)
    (hfinal : r.finalPosition = .ofNat (pos + objectSize order cls format o))
    (hcount : r.cd.getFieldCount = (cls t).fields.length) (hraw : r.raw = false)
    (hknows : ∀ j e fd, (o.entries cls)[j]? = some e → r.cd.find e.name = some fd →
      fd.index = j ∧ fd.type = e.kind.fieldType)
    (hstrict : r.isDefault = true ∨ ∀ e ∈ o.entries cls, (r.cd.find e.name).isSome) {k : K}
    {ctx : Context} (hinv : inv k ctx) (before : ℕ) :
    Yields inv (readBody order cls nested t r ctx data before) (Obj.asRead asRead cls t o)
      (fun last => last = pos + objectSize order cls format o)
      (scanEntries cls scan r.cd (o.entries cls) k) := by
  have hmeets : ∀ j e, (o.entries cls)[j]? = some e → r.Meets order cls format data (0 + j) e := by
    intro j e hj
    obtain ⟨place, hfound⟩ := found_of_objectAt h hfits hj
    rw [Nat.zero_add]
    refine ⟨⟨place, hoffset ▸ hfound⟩, ?_, ?_⟩
    · intro fd hfind
      obtain ⟨hindex, htype⟩ := hknows j e fd hj hfind
      exact ⟨hraw, hfind, hindex, htype⟩
    · exact hstrict.imp_right fun hall => hall e (mem_of_getElem? hj)
  have hfields : Yields inv (r.readFields order nested (cls t).fields ctx data before) _ _ _ :=
    yields_readFields hnested o.values hraw hinv hmeets
  unfold readBody
  rw [← Option.bind_fun_some (scanEntries cls scan r.cd (o.entries cls) k)]
  refine hfields.bind fun k' ctx' pos' hinv' _ => ?_
  obtain ⟨next, hread⟩ := readRawData_at h hfits hoffset hcount hraw pos'
  have hbound : pos + objectSize order cls format o ≤ data.length := by
    rw [← finalPosition_eq]
    exact h.raw.bound
  have hseek : seek r.finalPosition.toInt data next =
      .ok ((), pos + objectSize order cls format o) := by
    rw [hfinal, Compact.int32_ofNat_toInt hfits]
    exact seek_of_le hbound
  rw [bind_lift_ok hread, bind_lift_ok hseek]
  exact Yields.pure hinv' rfl

end Objects

end HazelcastClient.Serialization.Portable
