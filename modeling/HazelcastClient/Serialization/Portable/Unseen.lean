import Mathlib.Data.List.TakeWhile
import HazelcastClient.Serialization.Portable.Discovery
import HazelcastClient.Serialization.Portable.RoundTrip

/-!
# Classes that the reader has not seen

A context that has none of the definitions reads an object with the definitions that it
derives from the stream. What it has registered by then is a list of keys: the first
instance of a class that has no null and no empty array in the place of a portable registers
the class. An empty array of portables can be read only if the class of the object around it
is registered, as the stream does not give its ids to `read_class_definition`.
-/

namespace HazelcastClient.Serialization.Portable

open Compact (Name Output intMax)

open ByteParser RandomAccess Layout List FieldDefinition ClassDefinition Reading Obj Nested Context

/-! ## What is registered -/

abbrev Known := List (Int32 × ℤ)

section Learning

variable {Ty : Type} (cls : Ty → Class Ty) (version : Ty → Int32) {R : Ty → Type}

def key (t : Ty) : Int32 × ℤ :=
  ((cls t).factoryId, combineToLong (cls t).classId (version t))

def FieldDefinition.cut (fd : FieldDefinition) : FieldDefinition :=
  { fd with name := Portable.cut fd.name }

def foundDefinition (t : Ty) : ClassDefinition :=
  .build (cls t).factoryId (cls t).classId (version t)
    ((definition cls version t).fields.map FieldDefinition.cut)

variable (nested : (t : Ty) → R t → Known → Known)

/-- The definition that an instance gives. -/
def Obj.derive {t : Ty} (o : Obj cls R t) (k : Known) : ClassDefinition :=
  .build (cls t).factoryId (cls t).classId (version t)
    (deriveFields cls version nested (version t) 0 (true, k) (o.entries cls))

def Obj.learn (t : Ty) (o : Obj cls R t) (k : Known) : Known :=
  let s := learnEntries nested (o.entries cls) (true, k)
  if s.1 then key cls version t :: s.2 else s.2

/-- What is registered after the definition of the class was derived from the object. -/
def Nested.learn : (n : ℕ) → (t : Ty) → Nested cls n t → Known → Known
  | 0, _, _, k => k
  | n + 1, t, o, k => Obj.learn cls version (learn n) t o k

end Learning

section Deriving

variable {Ty : Type} {cls : Ty → Class Ty} {version : Ty → Int32} {R : Ty → Type} {K : Type}
  {learn : (t : Ty) → R t → K → K} {own : Int32} {i j : ℕ} {es : List (Entry R)} {s : Bool × K}

/-- The ids that are found are right if the class is still to be registered afterwards. -/
theorem Kind.derive_of_learn (cls : Ty → Class Ty) (version : Ty → Int32) (own : Int32)
    {k : Kind Ty} {v : k.Val R} (h : (k.learn learn v s).1 = true) :
    s.1 = true ∧ k.derive cls version own s.1 v = k.target cls version own := by
  obtain ⟨register, state⟩ := s
  cases k with
  | simple s => exact ⟨h, rfl⟩
  | portable t style =>
    cases v with
    | none => cases h
    | some r =>
      cases register with
      | false => cases h
      | true => exact ⟨rfl, rfl⟩
  | portableArray t =>
    cases v with
    | none => cases h
    | some rs =>
      cases rs with
      | nil => cases h
      | cons r rs =>
        obtain rfl : register = true := h
        exact ⟨rfl, rfl⟩

theorem register_of_learnEntries (cls : Ty → Class Ty) (version : Ty → Int32)
    (h : (learnEntries learn es s).1 = true) : s.1 = true := by
  induction es generalizing s with
  | nil => exact h
  | cons e es ih => exact (Kind.derive_of_learn cls version 0 (ih h)).1

theorem deriveFields_of_learn (h : (learnEntries learn es s).1 = true) :
    deriveFields cls version learn own i s es =
      (fieldDefinitions cls version own i (es.map fun e => (e.name, e.kind))).map
        FieldDefinition.cut := by
  induction es generalizing s i with
  | nil => rfl
  | cons e es ih =>
    have hfirst : (e.kind.learn learn e.value s).1 = true :=
      register_of_learnEntries cls version h
    have hfd : e.derive cls version own s.1 i =
        (fieldDefinition cls version own i (e.name, e.kind)).cut := by
      unfold Entry.derive
      rw [(Kind.derive_of_learn cls version own hfirst).2]
      rfl
    rw [deriveFields, hfd, ih h]
    rfl

theorem deriveFields_getElem? {e : Entry R} (hj : es[j]? = some e) :
    ∃ register, (deriveFields cls version learn own i s es)[j]? =
      some (e.derive cls version own register (i + j)) := by
  induction es generalizing s i j with
  | nil => cases hj
  | cons first es ih =>
    cases j with
    | zero =>
      obtain rfl := Option.some.inj hj
      exact ⟨s.1, rfl⟩
    | succ j =>
      rw [getElem?_cons_succ] at hj
      obtain ⟨register, h⟩ := ih (s := first.kind.learn learn first.value s) (i := i + 1) hj
      rw [Nat.add_right_comm, Nat.add_assoc] at h
      exact ⟨register, h⟩

theorem Values.entries_fields {fields : List (Name × Kind Ty)} (values : Values R fields) :
    (Values.entries fields values).map (fun e => (e.name, e.kind)) = fields := by
  induction fields with
  | nil => rfl
  | cons field fields ih => exact congrArg (field :: ·) (ih values.2)

theorem Obj.derive_of_learn {learn : (t : Ty) → R t → Known → Known} {t : Ty} {o : Obj cls R t}
    {k : Known} (h : (learnEntries learn (o.entries cls) (true, k)).1 = true) :
    o.derive cls version learn k = foundDefinition cls version t := by
  rw [derive, deriveFields_of_learn h, entries, Values.entries_fields]
  rfl

end Deriving

section Knowing

variable {Ty : Type} (cls : Ty → Class Ty) (v : Int32) (version : Ty → Int32)

/-- The classes of a writer with the version `v`: their versions are set, the key leads to one
definition, and the ids to one version. -/
structure Consistent : Prop where
  getVersion : ∀ t, (cls t).getVersion v = version t
  versioned : ∀ t, 0 ≤ version t ∨ version t = v
  unambiguous : ∀ t u, key cls version t = key cls version u →
    definition cls version t = definition cls version u
  ids : ∀ t u, (cls t).factoryId = (cls u).factoryId → (cls t).classId = (cls u).classId →
    version t = version u

/-- The context has registered the classes with these keys, and no others. -/
structure Knows (k : Known) (ctx : Context) : Prop where
  portableVersion : ctx.version = v
  lookup : ∀ t, ctx.lookup (cls t).factoryId (cls t).classId (version t) =
    if key cls version t ∈ k then some (foundDefinition cls version t) else none
  classVersions : ∀ t w, ctx.classVersions (cls t).factoryId (cls t).classId = some w →
    w = version t

variable {cls v version} (hclasses : Consistent cls v version) {k : Known} {ctx : Context}

include hclasses

theorem Consistent.found {t u : Ty} (h : key cls version t = key cls version u) :
    foundDefinition cls version t = foundDefinition cls version u := by
  have hsame := hclasses.unambiguous t u h
  have hids := mk.inj hsame
  unfold foundDefinition
  rw [hsame, hids.1, hids.2.1, hids.2.2.1]

section

variable (h : Knows cls v version k ctx) (t : Ty)

include h

theorem Knows.effective : (if version t < 0 then ctx.version else version t) = version t := by
  split
  · rename_i hneg
    rcases hclasses.versioned t with hpos | heq
    · exact absurd hpos (Int32.not_le.mpr hneg)
    · rw [h.portableVersion, heq]
  · rfl

theorem Knows.register :
    ∃ ctx', ctx.registerClassDefinition (foundDefinition cls version t) =
        .ok (foundDefinition cls version t, ctx') ∧
      Knows cls v version (key cls version t :: k) ctx' := by
  have hlookup : ctx.lookup (cls t).factoryId (cls t).classId (version t) = none ∨
      ctx.lookup (cls t).factoryId (cls t).classId (version t) =
        some (foundDefinition cls version t) := by
    rw [h.lookup]
    split
    · exact .inr rfl
    · exact .inl rfl
  have hnodup : ((foundDefinition cls version t).fields.map FieldDefinition.name).Nodup :=
    nodup_foldl_addFieldDef .nil
  obtain ⟨ctx', hok, hversion, hversions, hdefinitions⟩ :=
    registerClassDefinition_ok hnodup (by rw [h.portableVersion]; exact hclasses.versioned t) hlookup
  refine ⟨ctx', hok, hversion.trans h.portableVersion, fun u => ?_, fun u w hw => ?_⟩
  · have hlook : ctx'.lookup (cls u).factoryId (cls u).classId (version u) =
        if key cls version u = key cls version t then some (foundDefinition cls version t)
        else ctx.lookup (cls u).factoryId (cls u).classId (version u) :=
      (hdefinitions _ _).trans (if_congr ⟨fun h => Prod.ext h.1 h.2, Prod.mk.inj⟩ rfl rfl)
    rw [hlook, h.lookup u]
    by_cases hkey : key cls version u = key cls version t
    · rw [if_pos hkey, if_pos (hkey ▸ mem_cons_self), hclasses.found hkey]
    · simp only [mem_cons, hkey, false_or, if_false]
  · rw [hversions] at hw
    exact h.classVersions u w hw

theorem Knows.findPortableVersion :
    ∃ ctx', Portable.findPortableVersion cls t (cls t).factoryId (cls t).classId ctx =
        .ok (version t, ctx') ∧ Knows cls v version k ctx' := by
  obtain ⟨ctx', hok, hversion, hdefinitions, hversions⟩ :=
    findPortableVersion_ok cls t (cls t).factoryId (cls t).classId ctx
  have hown : versionIn cls ctx t = version t := by
    rw [versionIn, h.portableVersion, hclasses.getVersion]
  have hfound : (ctx.classVersions (cls t).factoryId (cls t).classId).getD (versionIn cls ctx t) =
      version t := by
    cases hset : ctx.classVersions (cls t).factoryId (cls t).classId with
    | none => exact hown
    | some w => exact h.classVersions t w hset
  rw [hfound] at hok
  refine ⟨ctx', hok, hversion.trans h.portableVersion, fun u => ?_, fun u w hw => ?_⟩
  · rw [Context.lookup, hdefinitions]
    exact h.lookup u
  · rcases hversions _ _ w hw with hold | ⟨hfactory, hclass, rfl⟩
    · exact h.classVersions u w hold
    · exact hown.trans (hclasses.ids t u hfactory.symm hclass.symm)

end

end Knowing

/-! ## The definition of an object -/

section Discovering

variable {order : ByteOrder} {Ty : Type} {cls : Ty → Class Ty} {v : Int32} {version : Ty → Int32}
  {R : Ty → Type} {format : Format R} {learn : (t : Ty) → R t → Known → Known}
  (hclasses : Consistent cls v version) {data : List UInt8} {pos levels : ℕ}

include hclasses

theorem readClassDefinition_at
    (hnested : DiscoversNested (readClassDefinition order levels) cls version format learn
      (Knows cls v version))
    (hstart : StartsWithVersion order version format) {t : Ty} {o : Obj cls R t}
    (h : ObjectAt order cls format data o (version t) pos)
    (hfits : pos + objectSize order cls format o ≤ intMax) {k : Known} {ctx : Context}
    (hknows : Knows cls v version k ctx) :
    ∃ ctx' pos', readClassDefinition order (levels + 1) (cls t).factoryId (cls t).classId
        (version t) ctx data (pos + 4) = .ok (o.derive cls version learn k, ctx', pos') ∧
      Knows cls v version (Obj.learn cls version learn t o k) ctx' := by
  have hsize : 12 + ((cls t).fields.length + 1) * 4 ≤ objectSize order cls format o := by
    rw [objectSize]
    omega
  have hfinal : ∃ final, readInt32 order data (pos + 4) = .ok (final, pos + 8) := by
    have hat := h.final
    rw [finalPosition_eq, ← storeInt32_ofNat hfits] at hat
    exact ⟨_, readInt32_at hat (by omega)⟩
  obtain ⟨final, hfinal⟩ := hfinal
  have hcount : readInt32 order data (pos + 8) =
      .ok (.ofNat (cls t).fields.length, pos + 12) := readInt32_at h.count (by omega)
  have hlength : (Int32.ofNat (cls t).fields.length).toInt.toNat = (o.entries cls).length := by
    rw [Compact.int32_ofNat_toInt (by omega), Int.toNat_natCast, entries, Values.entries_length]
  have hposition : position data (pos + 12) = .ok (pos + 12, pos + 12) := rfl
  have hfound : ∀ j e, (o.entries cls)[j]? = some e →
      ∃ place, Found order cls format data (pos + 12) (([] : List FieldDefinition).length + j) e
        place := by
    intro j e hj
    rw [length_nil, Nat.zero_add]
    exact found_of_objectAt h hfits hj
  obtain ⟨ctx', pos', hok, hknows'⟩ := readFieldDefinitions_at hnested hstart (version t)
    (o.entries cls) (s := (true, k)) hknows hfound (pos + 12)
  rw [nil_append, length_nil] at hok
  unfold readClassDefinition
  rw [bind_lift_ok hfinal, bind_lift_ok hcount, bind_lift_ok hposition,
    hlength, bind_of_ok hok]
  dsimp only
  unfold Obj.learn
  dsimp only
  split
  · rename_i hregister
    obtain ⟨ctx'', hregistered, hknows''⟩ := hknows'.register hclasses t
    rw [derive_of_learn hregister]
    have hderive : build (cls t).factoryId (cls t).classId (version t)
        (deriveFields cls version learn (version t) 0 (true, k) (o.entries cls)) =
          foundDefinition cls version t := derive_of_learn hregister
    refine ⟨ctx'', pos', ?_, hknows''⟩
    rw [hderive, onContext, hregistered]
    rfl
  · exact ⟨ctx', pos', rfl, hknows'⟩

omit hclasses in
theorem startsWithVersion (order : ByteOrder) (cls : Ty → Class Ty) (version : Ty → Int32) (n : ℕ) :
    StartsWithVersion order version (nestedFormat order cls version n) := by
  intro t o pos
  cases n with
  | zero => exact Empty.elim o
  | succ n =>
    simp only [nestedFormat, objectFormat, objectBytes, append_assoc]
    exact ⟨_, rfl⟩

theorem discoversNested (order : ByteOrder) (n : ℕ) :
    DiscoversNested (readClassDefinition order n) cls version (nestedFormat order cls version n)
      (Nested.learn cls version n) (Knows cls v version) := by
  induction n with
  | zero =>
    intro t o
    exact Empty.elim o
  | succ n ih =>
    intro t o k ctx data pos hknows hat hfits
    exact ⟨_, readClassDefinition_at hclasses ih (startsWithVersion order cls version n)
      (objectAt hat) hfits hknows⟩

end Discovering

/-! ## Reading with a definition from the stream -/

/-- No name of a field of the class has a zero byte. -/
def Plain {Ty : Type} (cls : Ty → Class Ty) (t : Ty) : Prop :=
  ∀ field ∈ (cls t).fields, cut field.1 = field.1

instance {Ty : Type} (cls : Ty → Class Ty) (t : Ty) : Decidable (Plain cls t) :=
  inferInstanceAs (Decidable (∀ field ∈ (cls t).fields, cut field.1 = field.1))

theorem cut_cut (name : Name) : cut (cut name) = cut name := takeWhile_idem

def FieldDefinition.header (fd : FieldDefinition) : ℕ × Name × FieldType :=
  (fd.index, fd.name, fd.type)

/-- The definitions are those of the fields of the class, up to the ids and with the names that
are found in the stream. -/
def Numbered {Ty : Type} (cls : Ty → Class Ty) (t : Ty) (fds : List FieldDefinition) : Prop :=
  fds.map header =
    (cls t).fields.zipIdx.map fun p => (p.2, cut p.1.1, p.1.2.fieldType)

section Reading

variable {order : ByteOrder} {Ty : Type} {cls : Ty → Class Ty} {R : Ty → Type} {format : Format R}
  {t : Ty} {fds : List FieldDefinition} {factoryId classId version : Int32}

section

variable (h : Numbered cls t fds)

include h

theorem Numbered.length : fds.length = (cls t).fields.length := by
  have hlength := congrArg List.length h
  rwa [length_map, length_map, length_zipIdx] at hlength

theorem Numbered.names : fds.map name = (cls t).fields.map fun field => cut field.1 := by
  have hnames := congrArg (map fun header => header.2.1) h
  rw [map_map, map_map] at hnames
  have hfields : (cls t).fields.zipIdx.map (fun p => cut p.1.1) =
      (cls t).fields.map fun field => cut field.1 := by
    rw [← zipIdx_map_fst 0 (cls t).fields, map_map, zipIdx_map_fst]
    rfl
  exact hnames.trans hfields

theorem Numbered.get {j : ℕ} {field : Name × Kind Ty} (hj : (cls t).fields[j]? = some field) :
    ∃ fd, fds[j]? = some fd ∧ fd.index = j ∧ fd.name = cut field.1 ∧
      fd.type = field.2.fieldType := by
  have hget := congrArg (fun l => l[j]?) h
  simp only [getElem?_map, getElem?_zipIdx, hj, Option.map_some, Nat.zero_add] at hget
  obtain ⟨fd, hfd, hheader⟩ := Option.map_eq_some_iff.mp hget
  obtain ⟨hindex, hrest⟩ := Prod.mk.inj hheader
  exact ⟨fd, hfd, hindex, Prod.mk.inj hrest⟩

end

variable {fd : FieldDefinition}

section

variable (h : Numbered cls t fds)

include h

theorem Numbered.cut_name (hmem : fd ∈ fds) : cut fd.name = fd.name := by
  have hname : fd.name ∈ fds.map name := mem_map_of_mem hmem
  rw [h.names] at hname
  obtain ⟨field, -, hfield⟩ := mem_map.mp hname
  rw [← hfield, cut_cut]

theorem Numbered.nodup (hplain : Plain cls t) : (fds.map name).Nodup := by
  rw [h.names, map_congr_left hplain]
  exact (cls t).nodup

theorem Numbered.build (hplain : Plain cls t) :
    build factoryId classId version fds = ⟨factoryId, classId, version, fds⟩ := by
  rw [ClassDefinition.build, foldl_addFieldDef, nil_append]
  exact h.nodup hplain

end

variable {e : Entry R} {o : Obj cls R t}

theorem scanEntries_missing {K : Type} {scan : Scan R K} {cd : ClassDefinition}
    {es : List (Entry R)} (he : e ∈ es) (hmissing : cd.find e.name = none) (k : K) :
    scanEntries cls scan cd es k = none := by
  induction es generalizing k with
  | nil => cases he
  | cons first es ih =>
    rcases mem_cons.mp he with rfl | htail
    · rw [scanEntries, hmissing]
      rfl
    · rw [scanEntries, Option.bind_eq_none_iff]
      intro k' _
      exact ih htail k'

theorem Numbered.find (h : Numbered cls t fds) (hnodup : (fds.map name).Nodup)
    {j : ℕ} (hj : (o.entries cls)[j]? = some e)
    (hfind : (⟨factoryId, classId, version, fds⟩ : ClassDefinition).find e.name = some fd) :
    fd.index = j ∧ fd.type = e.kind.fieldType := by
  obtain ⟨hmem, hname⟩ := mem_of_find hfind
  have hcut : cut e.name = e.name := hname ▸ h.cut_name hmem
  obtain ⟨fd', hget, hindex, hname', htype⟩ := h.get (entries_getElem? hj)
  have hfind' : (⟨factoryId, classId, version, fds⟩ : ClassDefinition).find fd'.name = some fd' :=
    find_of_mem hnodup (mem_of_getElem? hget)
  rw [hname', hcut, hfind] at hfind'
  obtain rfl := Option.some.inj hfind'
  exact ⟨hindex, htype⟩

/-- A field whose name has a zero byte is not found. -/
theorem Numbered.scanEntries_eq {K : Type} {scan : Scan R K} (h : Numbered cls t fds) (k : K) :
    scanEntries cls scan ⟨factoryId, classId, version, fds⟩ (o.entries cls) k =
      if Plain cls t then scanEntries cls scan ⟨factoryId, classId, version, fds⟩ (o.entries cls) k
      else none := by
  split
  · rfl
  · rename_i hplain
    obtain ⟨field, hfield, hne⟩ : ∃ field ∈ (cls t).fields, cut field.1 ≠ field.1 := by
      simpa [Plain] using hplain
    rw [← Values.entries_fields o.values] at hfield
    obtain ⟨e, he, rfl⟩ := mem_map.mp hfield
    refine scanEntries_missing he ?_ k
    by_contra hsome
    obtain ⟨fd, hfind⟩ := Option.ne_none_iff_exists'.mp hsome
    obtain ⟨hmem, hname⟩ := mem_of_find hfind
    exact hne (hname ▸ h.cut_name hmem)

variable {K : Type} {inv : K → Context → Prop}
  {nested : (t : Ty) → Int32 → Int32 → Reading (R t)} {asRead : (t : Ty) → R t → R t}
  {scan : Scan R K}

/-- An object that is read with such definitions. -/
theorem yields_numbered (hnested : ReadsNested nested format asRead scan inv cls)
    (hfds : Numbered cls t fds) {data : List UInt8} {pos : ℕ} {own : Int32}
    (h : ObjectAt order cls format data o own pos)
    (hfits : pos + objectSize order cls format o ≤ intMax) {k : K} {ctx : Context}
    (hinv : inv k ctx) :
    Yields inv ((lift (Reader.new order (.build factoryId classId version fds) true) >>=
        readBody order cls nested t) ctx data (pos + 4))
      (Obj.asRead asRead cls t o) (fun last => last = pos + objectSize order cls format o)
      (if Plain cls t then
        scanEntries cls scan ⟨factoryId, classId, version, fds⟩ (o.entries cls) k
      else none) := by
  by_cases hcount : (build factoryId classId version fds).getFieldCount =
      (cls t).fields.length
  · have hbuild : build factoryId classId version fds =
        ⟨factoryId, classId, version, fds⟩ := by
      have hlength : (fds.foldl addFieldDef []).length =
          ([] : List FieldDefinition).length + fds.length := by
        rw [length_nil, Nat.zero_add, hfds.length]
        exact hcount
      rw [build, foldl_addFieldDef_of_length hlength, nil_append]
    have hnodup : (fds.map name).Nodup := by
      have hnames : ((build factoryId classId version fds).fields.map
          name).Nodup := nodup_foldl_addFieldDef .nil
      rwa [hbuild] at hnames
    rw [hbuild] at hcount
    have hnew := readerNew_eq h hfits (build factoryId classId version fds) true
    rw [hbuild, if_pos hcount] at hnew
    rw [hbuild, bind_lift_ok hnew, ← hfds.scanEntries_eq]
    exact yields_readBody hnested h hfits rfl rfl hcount rfl
      (fun j e fd hj hfind => hfds.find hnodup hj hfind) (.inl rfl) hinv (pos + 12)
  · have hnew := readerNew_eq h hfits (build factoryId classId version fds) true
    rw [if_neg hcount] at hnew
    rw [if_neg, bind_lift_error hnew]
    · exact ⟨_, rfl⟩
    · intro hplain
      rw [hfds.build hplain] at hcount
      exact hcount hfds.length

end Reading

section Numbering

variable {Ty : Type} {cls : Ty → Class Ty} {version : Ty → Int32} {R : Ty → Type} {t : Ty}
  {K : Type} {learn : (t : Ty) → R t → K → K} {own : Int32} (o : Obj cls R t) (scan : Scan R K)
  (s : Bool × K)

theorem numbered_definition (version : Ty → Int32) (t : Ty) :
    Numbered cls t ((definition cls version t).fields.map FieldDefinition.cut) := by
  have hfields : ∀ (fields : List (Name × Kind Ty)) (own : Int32) (i : ℕ),
      ((fieldDefinitions cls version own i fields).map FieldDefinition.cut).map
          header =
        (fields.zipIdx i).map fun p => (p.2, cut p.1.1, p.1.2.fieldType) := by
    intro fields own
    induction fields with
    | nil => exact fun i => rfl
    | cons field fields ih => exact fun i => congrArg (_ :: ·) (ih (i + 1))
  exact hfields (cls t).fields (version t) 0

theorem numbered_deriveFields :
    Numbered cls t (deriveFields cls version learn own 0 s (o.entries cls)) := by
  have hentries : ∀ (es : List (Entry R)) (i : ℕ) (s : Bool × K),
      (deriveFields cls version learn own i s es).map header =
        ((es.map fun e => (e.name, e.kind)).zipIdx i).map
          fun p => (p.2, cut p.1.1, p.1.2.fieldType) := by
    intro es
    induction es with
    | nil => exact fun i s => rfl
    | cons e es ih => exact fun i s => congrArg (_ :: ·) (ih (i + 1) _)
  rw [Numbered, hentries, entries, Values.entries_fields]

/-- With plain names the definition of the class is found. -/
theorem map_cut_of_plain (hplain : Plain cls t) :
    (definition cls version t).fields.map FieldDefinition.cut = (definition cls version t).fields := by
  have hid : ∀ fd ∈ (definition cls version t).fields, fd.cut = id fd := by
    intro fd hmem
    have hname : fd.name ∈ (definition cls version t).fields.map FieldDefinition.name :=
      mem_map_of_mem hmem
    rw [definition, fieldDefinitions_names] at hname
    obtain ⟨field, hfield, heq⟩ := mem_map.mp hname
    rw [FieldDefinition.cut, ← heq, hplain field hfield]
    exact heq ▸ rfl
  rw [map_congr_left hid, map_id]

/-- An empty array of portables, whose ids are not found in the stream. -/
def Kind.Hidden (cls : Ty → Class Ty) : (k : Kind Ty) → k.Val R → Prop
  | .portableArray t, some [] => ¬ ((cls t).factoryId = 0 ∧ (cls t).classId = 0)
  | _, _ => False

instance (cls : Ty → Class Ty) : (k : Kind Ty) → (v : k.Val R) → Decidable (k.Hidden cls v)
  | .simple _, _ => isFalse id
  | .portable _ _, _ => isFalse id
  | .portableArray _, none => isFalse id
  | .portableArray t, some [] =>
    inferInstanceAs (Decidable (¬ ((cls t).factoryId = 0 ∧ (cls t).classId = 0)))
  | .portableArray _, some (_ :: _) => isFalse id

theorem scan_derive {register : Bool} {i : ℕ} (e : Entry R) (k : K) :
    Kind.scan cls scan (e.derive cls version own register i) e.kind e.value k =
      if e.kind.Hidden cls e.value then none else e.kind.walk scan e.value k := by
  obtain ⟨name, kind, v⟩ := e
  cases kind with
  | simple s => rfl
  | portable t style => cases v <;> exact if_pos ⟨rfl, rfl⟩
  | portableArray t =>
    cases v with
    | none => rfl
    | some rs =>
      cases rs with
      | nil =>
        by_cases hids : (cls t).factoryId = 0 ∧ (cls t).classId = 0
        · exact (if_pos ⟨hids.1.symm, hids.2.symm⟩).trans (if_neg (not_not.mpr hids)).symm
        · exact (if_neg fun h => hids ⟨h.1.symm, h.2.symm⟩).trans (if_pos hids).symm
      | cons r rs => exact if_pos ⟨rfl, rfl⟩

theorem find_derive {own factoryId classId : Int32} (hplain : Plain cls t) {e : Entry R}
    (he : e ∈ o.entries cls) :
    ∃ register i, (⟨factoryId, classId, own,
      deriveFields cls version learn own 0 s (o.entries cls)⟩ : ClassDefinition).find e.name =
        some (e.derive cls version own register i) := by
  set fds := deriveFields cls version learn own 0 s (o.entries cls) with hfds
  have hnumbered : Numbered cls t fds := numbered_deriveFields o s
  obtain ⟨j, hj⟩ := getElem?_of_mem he
  obtain ⟨register, hget⟩ : ∃ register, fds[j]? =
      some (e.derive cls version own register (0 + j)) := deriveFields_getElem? hj
  have hname : (e.derive cls version own register (0 + j)).name = e.name :=
    hplain _ (mem_of_getElem? (entries_getElem? hj))
  have hfind : (⟨factoryId, classId, own, fds⟩ : ClassDefinition).find
      (e.derive cls version own register (0 + j)).name =
        some (e.derive cls version own register (0 + j)) :=
    find_of_mem (hnumbered.nodup hplain) (mem_of_getElem? hget)
  rw [hname] at hfind
  exact ⟨register, 0 + j, hfind⟩

theorem scanEntries_derive {cd : ClassDefinition} {es : List (Entry R)}
    (hfind : ∀ e ∈ es, ∃ register i, cd.find e.name = some (e.derive cls version own register i))
    (k : K) :
    scanEntries cls scan cd es k =
      if ∃ e ∈ es, e.kind.Hidden cls e.value then none
      else es.foldlM (fun k e => e.kind.walk scan e.value k) k := by
  induction es generalizing k with
  | nil => rfl
  | cons e es ih =>
    obtain ⟨register, i, hfirst⟩ := hfind e mem_cons_self
    have hrest := ih fun e' he' => hfind e' (mem_cons_of_mem _ he')
    rw [scanEntries, hfirst, Option.bind_some, scan_derive, foldlM_cons]
    simp only [exists_mem_cons_iff]
    by_cases hhidden : e.kind.Hidden cls e.value
    · rw [if_pos hhidden, if_pos (.inl hhidden)]
      rfl
    · rw [if_neg hhidden]
      by_cases hexists : ∃ e' ∈ es, e'.kind.Hidden cls e'.value
      · rw [if_pos (.inr hexists), Option.bind_eq_none_iff]
        intro k' _
        rw [hrest, if_pos hexists]
      · rw [if_neg (not_or_intro hhidden hexists)]
        refine congrArg (Option.bind _) (funext fun k' => ?_)
        rw [hrest, if_neg hexists]

end Numbering

/-! ## Reading an object -/

section Scanning

variable {Ty : Type} (cls : Ty → Class Ty) (version : Ty → Int32) {R : Ty → Type}

/-- What is registered after the object was read, or none if the reader fails. -/
def Obj.scan (learn : (t : Ty) → R t → Known → Known) (scan : Scan R Known) :
    Scan (Obj cls R) Known := fun t o k =>
  if Plain cls t then
    if key cls version t ∈ k then
      (o.entries cls).foldlM (fun k e => e.kind.walk scan e.value k) k
    else if ∃ e ∈ o.entries cls, e.kind.Hidden cls e.value then none
    else
      (o.entries cls).foldlM (fun k e => e.kind.walk scan e.value k)
        (Obj.learn cls version learn t o k)
  else none

def Nested.scan : (n : ℕ) → Scan (Nested cls n) Known
  | 0 => fun _ _ k => some k
  | n + 1 => Obj.scan cls version (learn cls version n) (scan n)

end Scanning

section Objects

variable {order : ByteOrder} {Ty : Type} {cls : Ty → Class Ty} {v : Int32} {version : Ty → Int32}
  {R : Ty → Type} {format : Format R} {learn : (t : Ty) → R t → Known → Known}
  (hclasses : Consistent cls v version) {data : List UInt8} {pos levels : ℕ}
  {nested : (t : Ty) → Int32 → Int32 → Reading (R t)} {asRead : (t : Ty) → R t → R t}
  {scan : Scan R Known} {t : Ty} {o : Obj cls R t} {k : Known} {ctx : Context}

theorem Reading.bind_congr {T U : Type} {p q : Reading T} {f : T → Reading U} {ctx' : Context}
    {pos' : ℕ} (h : p ctx data pos = q ctx' data pos') :
    (p >>= f) ctx data pos = (q >>= f) ctx' data pos' := by
  change (p ctx data pos).bind _ = (q ctx' data pos').bind _
  rw [h]

theorem createReader_unknown {factoryId classId version portableVersion : Int32}
    (h : ctx.lookup factoryId classId (if version < 0 then ctx.version else version) = none) :
    createReader order levels factoryId classId version portableVersion ctx =
      (do
        let start ← .lift position
        let cd ← readClassDefinition order levels factoryId classId
          (if version < 0 then ctx.version else version)
        .lift (seek start)
        .lift (Reader.new order cd (decide
          ((if version < 0 then ctx.version else version) = portableVersion))) :
        Reading Reader) ctx := by
  unfold createReader
  dsimp only
  rw [h]

include hclasses

theorem createReader_registered (hknows : Knows cls v version k ctx)
    (hkey : key cls version t ∈ k) (portableVersion : Int32) :
    createReader order (levels + 1) (cls t).factoryId (cls t).classId (version t) portableVersion
        ctx =
      lift (Reader.new order (foundDefinition cls version t)
        (decide (version t = portableVersion))) ctx := by
  have heffective := hknows.effective hclasses t
  have hlookup : ctx.lookup (cls t).factoryId (cls t).classId
      (if version t < 0 then ctx.version else version t) = some (foundDefinition cls version t) := by
    rw [heffective, hknows.lookup, if_pos hkey]
  rw [createReader_known hlookup, heffective]

section

variable
    (hdiscovers : DiscoversNested (readClassDefinition order levels) cls version format learn
      (Knows cls v version))

include hdiscovers

section

variable (hstart : StartsWithVersion order version format)

include hstart

theorem createReader_derived (h : ObjectAt order cls format data o (version t) pos)
    (hfits : pos + objectSize order cls format o ≤ intMax) (hknows : Knows cls v version k ctx)
    (hkey : key cls version t ∉ k) (portableVersion : Int32) :
    ∃ ctx', createReader order (levels + 1) (cls t).factoryId (cls t).classId (version t)
        portableVersion ctx data (pos + 4) =
          lift (Reader.new order (o.derive cls version learn k)
            (decide (version t = portableVersion))) ctx' data (pos + 4) ∧
      Knows cls v version (Obj.learn cls version learn t o k) ctx' := by
  have heffective := hknows.effective hclasses t
  obtain ⟨ctx', pos', hok, hknows'⟩ :=
    readClassDefinition_at hclasses hdiscovers hstart h hfits hknows
  refine ⟨ctx', ?_, hknows'⟩
  have hposition : position data (pos + 4) = .ok (pos + 4, pos + 4) := rfl
  have hseek : seek ((pos + 4 : ℕ) : ℤ) data pos' = .ok ((), pos + 4) := by
    have hbound := h.final.bound
    exact seek_of_le (by omega)
  have hlookup : ctx.lookup (cls t).factoryId (cls t).classId
      (if version t < 0 then ctx.version else version t) = none := by
    rw [heffective, hknows.lookup, if_neg hkey]
  rw [createReader_unknown hlookup, heffective, bind_lift_ok hposition,
    bind_of_ok hok, bind_lift_ok hseek]

theorem yields_readObject_unseen
    (hnested : ReadsNested nested format asRead scan (Knows cls v version) cls)
    (hat : At data pos (objectBytes order cls format o (version t) pos))
    (hfits : pos + objectSize order cls format o ≤ intMax) (hknows : Knows cls v version k ctx) :
    Yields (Knows cls v version)
      (readObject order cls levels nested t (cls t).factoryId (cls t).classId ctx data pos)
      (Obj.asRead asRead cls t o) (fun last => last = pos + objectSize order cls format o)
      (Obj.scan cls version learn scan t o k) := by
  have hobject := objectAt hat
  have hsize : 12 ≤ objectSize order cls format o := by
    rw [objectSize]
    omega
  obtain ⟨ctx', hversion, hknows'⟩ := hknows.findPortableVersion hclasses t
  unfold readObject
  rw [bind_lift_ok (readInt32_at hobject.version (by omega)),
    bind_onContext_ok hversion]
  by_cases hkey : key cls version t ∈ k
  · have hstate : Obj.scan cls version learn scan t o k = if Plain cls t then
        scanEntries cls scan ⟨(cls t).factoryId, (cls t).classId, version t,
          (definition cls version t).fields.map FieldDefinition.cut⟩ (o.entries cls) k
        else none := by
      unfold Obj.scan
      rw [if_pos hkey]
      refine ite_congr rfl (fun hplain => ?_) fun _ => rfl
      rw [map_cut_of_plain hplain]
      exact (scanEntries_definition scan version (fun e he => fields_of_entries o he) k).symm
    have hcreate : createReader order (levels + 1) (cls t).factoryId (cls t).classId (version t)
        (version t) ctx' = _ := createReader_registered hclasses hknows' hkey (version t)
    rw [decide_eq_true rfl] at hcreate
    rw [bind_congr (congrFun₂ hcreate data (pos + 4)), hstate]
    exact yields_numbered hnested (numbered_definition version t) hobject hfits hknows'
  · have hstate : Obj.scan cls version learn scan t o k = if Plain cls t then
        scanEntries cls scan ⟨(cls t).factoryId, (cls t).classId, version t,
          deriveFields cls version learn (version t) 0 (true, k) (o.entries cls)⟩ (o.entries cls)
          (Obj.learn cls version learn t o k)
        else none := by
      unfold Obj.scan
      rw [if_neg hkey]
      refine ite_congr rfl (fun hplain => ?_) fun _ => rfl
      exact (scanEntries_derive scan (fun e he => find_derive o (true, k) hplain he) _).symm
    obtain ⟨ctx'', hcreate, hknows''⟩ :=
      createReader_derived hclasses hdiscovers hstart hobject hfits hknows' hkey (version t)
    rw [decide_eq_true rfl] at hcreate
    rw [bind_congr hcreate, hstate]
    exact yields_numbered hnested (numbered_deriveFields o (true, k)) hobject hfits hknows''

end

end

/-- A reader that has none of the definitions reads an object as the scan says. -/
theorem readsNested_unseen (order : ByteOrder) (n : ℕ) :
    ReadsNested (reading order cls n) (nestedFormat order cls version n) (Nested.asRead cls n)
      (Nested.scan cls version n) (Knows cls v version) cls := by
  induction n with
  | zero =>
    intro t o
    exact Empty.elim o
  | succ n ih =>
    intro t o k ctx data pos hknows hat hfits
    exact yields_readObject_unseen hclasses (discoversNested hclasses order n)
      (startsWithVersion order cls version n) ih hat hfits hknows

end Objects

/-! ## Two clients -/

section Clients

variable (order : ByteOrder) {Ty : Type} (cls : Ty → Class Ty)

/-- The context of a client with the version of `W` that has never read or written the
classes. -/
structure Unseen (W R : Context) : Prop where
  version : R.version = W.version
  definitions : ∀ t, R.lookup (cls t).factoryId (cls t).classId (versionIn cls W t) = none
  classVersions : ∀ t v, R.classVersions (cls t).factoryId (cls t).classId = some v →
    v = versionIn cls W t

/-- The context `R` reads the same object from the stream as `W`, up to the same position. -/
def ReadsAlike (n : ℕ) (t : Ty) (W R : Context) (data : List UInt8) (pos : ℕ) : Prop :=
  ∃ o ctx ctx' last, read order cls n t R data pos = .ok (o, ctx, last) ∧
    read order cls n t W data pos = .ok (o, ctx', last)

variable {order cls} {n : ℕ} {t : Ty} {W W' R : Context}

theorem consistent_of_defines (hdefs : Defines cls W)
    (hids : ∀ t u, (cls t).factoryId = (cls u).factoryId → (cls t).classId = (cls u).classId →
      versionIn cls W t = versionIn cls W u) :
    Consistent cls W.version (versionIn cls W) where
  getVersion := fun t => rfl
  versioned := fun t => by
    have hversioned := W.versioned (hdefs t)
    exact hversioned
  unambiguous := by
    intro t u hkey
    have hlookup : W.lookup (cls t).factoryId (cls t).classId (versionIn cls W t) =
        W.lookup (cls u).factoryId (cls u).classId (versionIn cls W u) := by
      unfold Context.lookup
      rw [(Prod.mk.inj hkey).1, (Prod.mk.inj hkey).2]
    rw [hdefs t, hdefs u] at hlookup
    exact Option.some.inj hlookup
  ids := hids

/-- A client that has not seen the classes reads an object as the writer would, exactly if the
definitions that it derives are good enough. -/
theorem readsAlike_iff (hdefs : Defines cls W)
    (hids : ∀ t u, (cls t).factoryId = (cls u).factoryId → (cls t).classId = (cls u).classId →
      versionIn cls W t = versionIn cls W u)
    (hunseen : Unseen cls W R) {o : Nested cls n t} {out out' : Output} (rest : Output)
    (hwrite : write order cls o W out = .ok (out', W')) :
    ReadsAlike order cls n t W R (out' ++ rest) out.length ↔
      (scan cls (versionIn cls W) n t o []).isSome := by
  have hclasses := consistent_of_defines hdefs hids
  obtain ⟨⟨-, hfits⟩, heq⟩ := (runs_write order hdefs o out).of_ok hwrite
  obtain ⟨rfl, -⟩ := Prod.mk.inj heq
  set format := nestedFormat order cls (versionIn cls W) n with hformat
  set bytes := out ++ Writer.ids order cls t ++ format.bytes o (out.length + 8) with hbytes
  have hat : At (bytes ++ rest) out.length
      (Writer.ids order cls t ++ format.bytes o (out.length + 8)) :=
    ⟨out, rest, by rw [hbytes, append_assoc out], rfl⟩
  have hknows : Knows cls W.version (versionIn cls W) [] R :=
    ⟨hunseen.version, hunseen.definitions, hunseen.classVersions⟩
  have hreader := yields_read (readsNested_unseen hclasses order n) hknows hat hfits
  obtain ⟨ctx, last, hwriter, -, hlast⟩ :=
    yields_read (readsNested_defined order hdefs n) (k := ()) ⟨rfl, rfl⟩ hat hfits
  constructor
  · rintro ⟨v, ctx₁, ctx₂, last', hr, -⟩
    cases hscan : scan cls (versionIn cls W) n t o [] with
    | some k => rfl
    | none =>
      rw [hscan] at hreader
      obtain ⟨e, herr⟩ := hreader
      rw [herr] at hr
      cases hr
  · intro hsome
    obtain ⟨k, hk⟩ := Option.isSome_iff_exists.mp hsome
    rw [hk] at hreader
    obtain ⟨ctx', last', hr, -, hlast'⟩ := hreader
    rw [hlast'] at hr
    rw [hlast] at hwriter
    exact ⟨_, ctx', ctx, _, hr, hwriter⟩

end Clients

theorem sample_ids (t u : Sample) (_ : (sampleClass t).factoryId = (sampleClass u).factoryId)
    (_ : (sampleClass t).classId = (sampleClass u).classId) :
    versionIn sampleClass sampleContext t = versionIn sampleClass sampleContext u := by
  cases t <;> cases u <;> rfl

theorem sample_unseen : Unseen sampleClass sampleContext (empty 0) where
  version := by decide +kernel
  definitions := fun _ => rfl
  classVersions := fun _ _ h => by cases h

/-- An object with two nested ones in an array, whose class is known for the second of them. -/
theorem readsAlike_sample :
    Unseen sampleClass sampleContext (empty 0) ∧
      ∃ out, ReadsAlike .big sampleClass 2 .outer sampleContext (empty 0) (out ++ []) 0 := by
  set o := sampleOuter (some (sampleInner none)) (some [sampleInner (some [1]), sampleInner none])
    with ho
  have hfits : ([] : Output).length + 8 +
      (nestedFormat .big sampleClass (versionIn sampleClass sampleContext) 2).size o ≤ intMax := by
    decide +kernel
  have hgood : Nested.Good sampleClass 2 .outer o := by decide +kernel
  have hwrite := (runs_write .big sample_defines o []).ok hfits ⟨hgood, hfits⟩
  exact ⟨sample_unseen, _, (readsAlike_iff sample_defines sample_ids sample_unseen [] hwrite).mpr
    (by decide +kernel)⟩

def sampleEmpty : Nested sampleClass 2 .outer := sampleOuter (some (sampleInner none)) (some [])

/-- The writer reads it, the other client does not: it expects the factory id zero. -/
theorem empty_array_refused :
    Defines sampleClass sampleContext ∧ Unseen sampleClass sampleContext (empty 0) ∧
      ∃ out, (write .big sampleClass sampleEmpty sampleContext []).toOption.map Prod.fst = some out ∧
        (read .big sampleClass 2 .outer sampleContext out 0).toOption.isSome ∧
        (read .big sampleClass 2 .outer (empty 0) out 0).map (fun _ => ()) =
          .error (.thrown (.invalidFactoryId 0 1)) := by
  refine ⟨sample_defines, sample_unseen,
    ((write .big sampleClass sampleEmpty sampleContext []).toOption.map Prod.fst).getD [], ?_⟩
  decide +kernel

end HazelcastClient.Serialization.Portable
