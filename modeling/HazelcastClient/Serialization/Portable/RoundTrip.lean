import HazelcastClient.Serialization.Portable.ReaderLaw
import HazelcastClient.Serialization.Portable.WriterLaw

/-!
# Writing and reading portables

In a context that has the definitions of all classes an object is read as it was written, if
no null pointer was passed to `write_portable`, if it has no empty array of values, and if
its bytes end at a position that an `int` can hold.
-/

namespace HazelcastClient.Serialization.Portable

open Compact (Name Output intMax)

open ByteParser RandomAccess Layout List Option Reading Nested Values Context

section Contexts

variable {Ty : Type} {cls : Ty → Class Ty} {ctx : Context}

theorem setClassVersion_none {factoryId classId version : Int32} (h : 0 < version)
    (hnone : ctx.classVersions factoryId classId = none) :
    ∃ ctx', ctx.setClassVersion factoryId classId version h = .ok ctx' ∧
      ctx'.version = ctx.version ∧ ctx'.definitions = ctx.definitions ∧
      ctx'.classVersions = fun f c =>
        if f = factoryId ∧ c = classId then some version else ctx.classVersions f c := by
  unfold setClassVersion
  split
  · rename_i current hcurrent
    rw [hnone] at hcurrent
    cases hcurrent
  · exact ⟨_, rfl, rfl, rfl, rfl⟩

theorem findPortableVersion_ok (cls : Ty → Class Ty) (t : Ty) (factoryId classId : Int32)
    (ctx : Context) :
    ∃ ctx', findPortableVersion cls t factoryId classId ctx =
        .ok ((ctx.classVersions factoryId classId).getD (versionIn cls ctx t), ctx') ∧
      ctx'.version = ctx.version ∧ ctx'.definitions = ctx.definitions ∧
      ∀ f c v, ctx'.classVersions f c = some v → ctx.classVersions f c = some v ∨
        f = factoryId ∧ c = classId ∧ v = versionIn cls ctx t := by
  unfold findPortableVersion
  cases hversion : ctx.classVersions factoryId classId with
  | some v =>
    have hpos : ¬ ctx.getClassVersion factoryId classId < 0 := by
      rw [getClassVersion, hversion, getD_some]
      exact Int32.not_lt.mpr (Int32.le_of_lt (ctx.positive hversion))
    refine ⟨ctx, ?_, rfl, rfl, fun f c v hv => .inl hv⟩
    rw [if_neg hpos, getClassVersion, hversion]
    rfl
  | none =>
    have hneg : ctx.getClassVersion factoryId classId < 0 := by
      rw [getClassVersion, hversion, getD_none]
      decide
    rw [if_pos hneg]
    by_cases h : 0 < (cls t).getVersion ctx.version
    · obtain ⟨ctx', hok, hv, hdefs, hversions⟩ := setClassVersion_none h hversion
      rw [dif_pos h, hok]
      refine ⟨ctx', rfl, hv, hdefs, fun f c v hset => ?_⟩
      rw [hversions] at hset
      dsimp only at hset
      split at hset
      · rename_i hids
        exact .inr ⟨hids.1, hids.2, (Option.some.inj hset).symm⟩
      · exact .inl hset
    · rw [dif_neg h]
      exact ⟨ctx, rfl, rfl, rfl, fun f c v hv => .inl hv⟩

theorem effectiveVersion (hdefs : Defines cls ctx) (t : Ty) :
    (if versionIn cls ctx t < 0 then ctx.version else versionIn cls ctx t) = versionIn cls ctx t := by
  have hversioned := ctx.versioned (hdefs t)
  split
  · rename_i hneg
    rcases hversioned with hpos | heq
    · exact absurd hpos (Int32.not_le.mpr hneg)
    · exact heq.symm
  · rfl

end Contexts

section Known

variable {order : ByteOrder} {Ty : Type} {cls : Ty → Class Ty} {R : Ty → Type} {W : Context}
  {t : Ty}

/-- The context has the definitions of `W`. -/
def SameDefinitions (W : Context) (_ : Unit) (ctx : Context) : Prop :=
  ctx.version = W.version ∧ ctx.definitions = W.definitions

variable {portableVersion : Int32} {K : Type} (scan : Scan R K) (version : Ty → Int32)
  {ctx : Context}

theorem createReader_known {levels : ℕ} {factoryId classId version : Int32} {cd : ClassDefinition}
    (h : ctx.lookup factoryId classId (if version < 0 then ctx.version else version) = some cd) :
    createReader order levels factoryId classId version portableVersion ctx =
      lift (Reader.new order cd (decide
        ((if version < 0 then ctx.version else version) = portableVersion))) ctx := by
  unfold createReader
  dsimp only
  rw [h]

theorem scan_fieldDefinition (own : Int32) (i : ℕ) (e : Entry R) (k : K) :
    Kind.scan cls scan (fieldDefinition cls version own i (e.name, e.kind)) e.kind e.value k =
      e.kind.walk scan e.value k := by
  obtain ⟨name, kind, v⟩ := e
  cases kind with
  | simple s => rfl
  | portable t style => cases v <;> exact if_pos ⟨rfl, rfl⟩
  | portableArray t =>
    cases v with
    | none => rfl
    | some rs => exact if_pos ⟨rfl, rfl⟩

variable {es : List (Entry R)}

theorem scanEntries_definition
    (hfields : ∀ e ∈ es, ∃ j : ℕ, (cls t).fields[j]? = some (e.name, e.kind)) (k : K) :
    scanEntries cls scan (definition cls version t) es k =
      es.foldlM (fun k e => e.kind.walk scan e.value k) k := by
  induction es generalizing k with
  | nil => rfl
  | cons e es ih =>
    obtain ⟨j, hj⟩ := hfields e mem_cons_self
    have hfind : (definition cls version t).find e.name =
        some (fieldDefinition cls version (version t) j (e.name, e.kind)) := find_definition hj
    rw [scanEntries, hfind, bind_some, scan_fieldDefinition, foldlM_cons]
    exact congrArg (Option.bind _) (funext fun k' =>
      ih (fun e' he' => hfields e' (mem_cons_of_mem _ he')) k')

theorem fields_of_entries (o : Obj cls R t) {e : Entry R} (he : e ∈ o.entries cls) :
    ∃ j : ℕ, (cls t).fields[j]? = some (e.name, e.kind) := by
  obtain ⟨j, hj⟩ := List.getElem?_of_mem he
  exact ⟨j, entries_getElem? hj⟩

variable {data : List UInt8} {pos : ℕ} {inv : K → Context → Prop}

theorem yields_readObject_known {format : Format R}
    {nested : (t : Ty) → Int32 → Int32 → Reading (R t)} {asRead : (t : Ty) → R t → R t}
    {scan : Scan R K} (hnested : ReadsNested nested format asRead scan inv cls)
    {version : Ty → Int32} {o : Obj cls R t}
    (hat : At data pos (objectBytes order cls format o (version t) pos))
    (hfits : pos + objectSize order cls format o ≤ intMax) (levels : ℕ) {ctx ctx' : Context} {k : K}
    (hinv : inv k ctx')
    (hversion : findPortableVersion cls t (cls t).factoryId (cls t).classId ctx =
      .ok (portableVersion, ctx'))
    (hlookup : ctx'.lookup (cls t).factoryId (cls t).classId
      (if version t < 0 then ctx'.version else version t) = some (definition cls version t)) :
    Yields inv (readObject order cls levels nested t (cls t).factoryId (cls t).classId ctx data pos)
      (Obj.asRead asRead cls t o) (fun last => last = pos + objectSize order cls format o)
      ((o.entries cls).foldlM (fun k e => e.kind.walk scan e.value k) k) := by
  have hobject := objectAt hat
  have hsize : 12 ≤ objectSize order cls format o := by
    rw [objectSize]
    omega
  have hread := readInt32_at hobject.version (by omega)
  have hcount : (definition cls version t).getFieldCount = (cls t).fields.length :=
    fieldDefinitions_length
  have hcreate : createReader order (levels + 1) (cls t).factoryId (cls t).classId (version t)
      portableVersion ctx' data (pos + 4) =
        .ok (⟨definition cls version t, .ofNat (pos + objectSize order cls format o), pos + 12,
          decide ((if version t < 0 then ctx'.version else version t) = portableVersion), false⟩,
          ctx', pos + 12) := by
    rw [createReader_known hlookup, lift, readerNew_eq hobject hfits, if_pos hcount]
    rfl
  have hfind : ∀ j e, (o.entries cls)[j]? = some e → (definition cls version t).find e.name =
      some (fieldDefinition cls version (version t) j (e.name, e.kind)) :=
    fun j e hj => find_definition (entries_getElem? hj)
  rw [← scanEntries_definition scan version fun e he => fields_of_entries o he]
  unfold readObject
  rw [bind_lift_ok hread, bind_onContext_ok hversion,
    bind_of_ok hcreate]
  refine yields_readBody hnested hobject hfits rfl rfl hcount rfl ?_ (.inr ?_) hinv (pos + 12)
  · intro j e fd hj hfd
    obtain rfl : _ = fd := Option.some.inj ((hfind j e hj).symm.trans hfd)
    exact ⟨rfl, rfl⟩
  · intro e he
    obtain ⟨j, hj⟩ := List.getElem?_of_mem he
    rw [hfind j e hj]
    rfl

theorem walk_total :
    es.foldlM (fun k e => e.kind.walk (fun _ _ k => some k) e.value k) () = some () := by
  induction es with
  | nil => rfl
  | cons e es ih =>
    have hstep : e.kind.walk (fun _ _ k => some k) e.value () = some () := by
      obtain ⟨name, kind, v⟩ := e
      cases kind with
      | simple s => rfl
      | portable t style => cases v <;> rfl
      | portableArray t =>
        cases v with
        | none => rfl
        | some rs => exact foldlM_pure
    rw [foldlM_cons, hstep]
    exact ih

/-- A reader that has all definitions reads every object. -/
theorem readsNested_defined (order : ByteOrder) (hdefs : Defines cls W) (n : ℕ) :
    ReadsNested (reading order cls n) (nestedFormat order cls (versionIn cls W) n)
      (asRead cls n) (fun _ _ k => some k) (SameDefinitions W) cls := by
  induction n with
  | zero =>
    intro t r
    exact Empty.elim r
  | succ n ih =>
    intro t o k ctx data pos hinv hat hfits
    obtain ⟨ctx', hok, hversion, hdefinitions, -⟩ :=
      findPortableVersion_ok cls t (cls t).factoryId (cls t).classId ctx
    have hinv' : SameDefinitions W () ctx' :=
      ⟨hversion.trans hinv.1, hdefinitions.trans hinv.2⟩
    have hlookup : ctx'.lookup (cls t).factoryId (cls t).classId
        (if versionIn cls W t < 0 then ctx'.version else versionIn cls W t) =
          some (definition cls (versionIn cls W) t) := by
      rw [hinv'.1, effectiveVersion hdefs, Context.lookup, hinv'.2]
      exact hdefs t
    have h := yields_readObject_known ih hat hfits n hinv' hok hlookup
    rwa [walk_total] at h

theorem yields_read {n : ℕ} {format : Format (Nested cls n)}
    {asRead : (t : Ty) → Nested cls n t → Nested cls n t} {scan : Scan (Nested cls n) K}
    (hnested : ReadsNested (reading order cls n) format asRead scan inv cls) {o : Nested cls n t}
    {k : K} (hinv : inv k ctx)
    (hat : At data pos (Writer.ids order cls t ++ format.bytes o (pos + 8)))
    (hfits : pos + 8 + format.size o ≤ intMax) :
    Yields inv (read order cls n t ctx data pos) (asRead t o)
      (fun last => last = pos + 8 + format.size o) (scan t o k) := by
  have hids := hat.left
  have hobject := hat.right
  rw [ids_length] at hobject
  obtain ⟨hfactory, hclass⟩ := ids_at hids (by omega)
  unfold read
  rw [bind_lift_ok hfactory, bind_lift_ok hclass, if_neg (by simp)]
  exact hnested t o k ctx data (pos + 8) hinv hobject hfits

end Known

/-! ## The values that come back -/

section Kept

variable {Ty : Type} {cls : Ty → Class Ty} {R : Ty → Type}

/-- The value is no empty array. -/
def Simple.Kept : (s : Simple) → s.Val → Prop
  | .single _, _ => True
  | .char16, _ => True
  | .array _, v => v ≠ some []

def RawValues.Kept : (ss : List Simple) → RawValues ss → Prop
  | [], _ => True
  | s :: ss, (v, values) => s.Kept v ∧ RawValues.Kept ss values

def Kind.Kept (nested : (t : Ty) → R t → Prop) : (k : Kind Ty) → k.Val R → Prop
  | .simple s, v => s.Kept v
  | .portable t _, v => ∀ r ∈ v, nested t r
  | .portableArray t, v => ∀ rs ∈ v, ∀ r ∈ rs, nested t r

def Obj.Kept (nested : (t : Ty) → R t → Prop) (t : Ty) (o : Obj cls R t) : Prop :=
  (∀ e ∈ o.entries cls, e.kind.Kept nested e.value) ∧ RawValues.Kept _ o.raw

def Nested.Kept (cls : Ty → Class Ty) : (n : ℕ) → (t : Ty) → Nested cls n t → Prop
  | 0, _, r => Empty.elim r
  | n + 1, t, o => Obj.Kept (Nested.Kept cls n) t o

instance Simple.decidableKept : (s : Simple) → (v : s.Val) → Decidable (s.Kept v)
  | .single _, _ => isTrue trivial
  | .char16, _ => isTrue trivial
  | .array _, none => isTrue (by simp [Simple.Kept])
  | .array _, some [] => isFalse (by simp [Simple.Kept])
  | .array _, some (_ :: _) => isTrue (by simp [Simple.Kept])

instance RawValues.decidableKept :
    (ss : List Simple) → (values : RawValues ss) → Decidable (RawValues.Kept ss values)
  | [], _ => isTrue trivial
  | s :: ss, (v, values) =>
    haveI := RawValues.decidableKept ss values
    inferInstanceAs (Decidable (s.Kept v ∧ RawValues.Kept ss values))

instance Kind.decidableKept {nested : (t : Ty) → R t → Prop} [∀ t r, Decidable (nested t r)] :
    (k : Kind Ty) → (v : k.Val R) → Decidable (k.Kept nested v)
  | .simple s, v => inferInstanceAs (Decidable (s.Kept v))
  | .portable t _, v => inferInstanceAs (Decidable (∀ r ∈ v, nested t r))
  | .portableArray t, v => inferInstanceAs (Decidable (∀ rs ∈ v, ∀ r ∈ rs, nested t r))

instance Nested.decidableKept (cls : Ty → Class Ty) :
    (n : ℕ) → (t : Ty) → (o : Nested cls n t) → Decidable (Nested.Kept cls n t o)
  | 0, _, r => Empty.elim r
  | n + 1, _, o =>
    haveI := decidableKept cls n
    inferInstanceAs (Decidable ((∀ e ∈ Obj.entries cls o,
      e.kind.Kept (Nested.Kept cls n) e.value) ∧ RawValues.Kept _ (Obj.raw o)))

theorem Simple.asRead_eq_iff (s : Simple) (v : s.Val) : s.asRead v = v ↔ s.Kept v := by
  cases s with
  | single i | char16 => exact iff_of_true rfl trivial
  | array i =>
    cases v with
    | none => exact iff_of_true rfl (by simp [Simple.Kept])
    | some vs =>
      cases vs with
      | nil => exact iff_of_false (by simp [Simple.asRead]) (by simp [Simple.Kept])
      | cons v vs => exact iff_of_true rfl (by simp [Simple.Kept])

theorem RawValues.asRead_eq_iff (ss : List Simple) (values : RawValues ss) :
    RawValues.asRead ss values = values ↔ RawValues.Kept ss values := by
  induction ss with
  | nil => exact iff_of_true rfl trivial
  | cons s ss ih =>
    obtain ⟨v, values⟩ := values
    exact Prod.ext_iff.trans (and_congr (s.asRead_eq_iff v) (ih values))

section Nested

variable {asRead : (t : Ty) → R t → R t} {kept : (t : Ty) → R t → Prop}
  (hnested : ∀ t r, asRead t r = r ↔ kept t r)

include hnested

theorem Kind.asRead_eq_iff (k : Kind Ty) (v : k.Val R) :
    k.asRead asRead v = v ↔ k.Kept kept v := by
  cases k with
  | simple s => exact s.asRead_eq_iff v
  | portable t style =>
    cases v with
    | none => exact iff_of_true rfl (by simp [Kind.Kept])
    | some r => simp [Kind.asRead, Kind.Kept, hnested]
  | portableArray t =>
    cases v with
    | none => exact iff_of_true rfl (by simp [Kind.Kept])
    | some rs =>
      have hmap : rs.map (asRead t) = rs ↔ ∀ r ∈ rs, asRead t r = r := by
        conv_lhs =>
          rhs
          rw [← map_id rs]
        exact map_inj_left
      simp [Kind.asRead, Kind.Kept, hmap, hnested]

theorem Values.asRead_eq_iff (fields : List (Name × Kind Ty)) (values : Values R fields) :
    Values.asRead asRead fields values = values ↔
      ∀ e ∈ entries fields values, e.kind.Kept kept e.value := by
  induction fields with
  | nil => exact iff_of_true rfl (by simp [entries])
  | cons field fields ih =>
    obtain ⟨name, k⟩ := field
    obtain ⟨v, values⟩ := values
    have hentries : entries ((name, k) :: fields) (v, values) =
        (⟨name, k, v⟩ : Entry R) :: entries fields values := rfl
    rw [hentries, forall_mem_cons]
    exact Prod.ext_iff.trans (and_congr (k.asRead_eq_iff hnested v) (ih values))

theorem Obj.asRead_eq_iff {t : Ty} (o : Obj cls R t) :
    Obj.asRead asRead cls t o = o ↔ Obj.Kept kept t o := by
  obtain ⟨values, raw⟩ := o
  rw [Obj.asRead, Obj.mk.injEq]
  exact and_congr (Values.asRead_eq_iff hnested _ values) (RawValues.asRead_eq_iff _ raw)

end Nested

theorem Nested.asRead_eq_iff (cls : Ty → Class Ty) (n : ℕ) (t : Ty) (o : Nested cls n t) :
    asRead cls n t o = o ↔ Nested.Kept cls n t o := by
  induction n generalizing t with
  | zero => exact Empty.elim o
  | succ n ih => exact Obj.asRead_eq_iff ih o

end Kept

/-! ## The round trip -/

section RoundTrip

variable (order : ByteOrder) {Ty : Type} (cls : Ty → Class Ty) {n : ℕ} {t : Ty}

/-- What was written is read: the same object, and the input stands behind it. -/
def RoundTrips (W : Context) (o : Nested cls n t) (out rest : Output) : Prop :=
  ∃ out' ctx, write order cls o W out = .ok (out', W) ∧
    read order cls n t W (out' ++ rest) out.length = .ok (o, ctx, out'.length)

variable {order cls} {W : Context}

/-- In a context with the definitions of all classes an object makes the round trip exactly if
no null pointer was passed to `write_portable`, no array of values is empty and the bytes end at
a position that an `int` can hold. -/
theorem roundTrips_iff (hdefs : Defines cls W) (o : Nested cls n t) (out rest : Output) :
    RoundTrips order cls W o out rest ↔ Nested.Good cls n t o ∧ Nested.Kept cls n t o ∧
      out.length + 8 + (nestedFormat order cls (versionIn cls W) n).size o ≤ intMax := by
  set format := nestedFormat order cls (versionIn cls W) n with hformat
  set bytes := out ++ Writer.ids order cls t ++ format.bytes o (out.length + 8) with hbytes
  have hwrite := runs_write order hdefs o out
  have hlength : bytes.length = out.length + 8 + format.size o := by
    rw [hbytes, length_append, length_append, ids_length, format.length]
  have hat : At (bytes ++ rest) out.length
      (Writer.ids order cls t ++ format.bytes o (out.length + 8)) :=
    ⟨out, rest, by rw [hbytes, append_assoc out], rfl⟩
  have hread : out.length + 8 + format.size o ≤ intMax → ∃ ctx, read order cls n t W
      (bytes ++ rest) out.length = .ok (asRead cls n t o, ctx, bytes.length) := by
    intro hfits
    obtain ⟨ctx, last, hok, -, hlast⟩ :=
      yields_read (readsNested_defined order hdefs n) (k := ()) ⟨rfl, rfl⟩ hat hfits
    rw [hlength, ← hlast]
    exact ⟨ctx, hok⟩
  constructor
  · rintro ⟨out', ctx, hw, hr⟩
    obtain ⟨⟨hgood, hfits⟩, heq⟩ := hwrite.of_ok hw
    obtain ⟨rfl, -⟩ := Prod.mk.inj heq
    obtain ⟨ctx', hr'⟩ := hread hfits
    have hsame : asRead cls n t o = o :=
      congrArg Prod.fst (Except.ok.inj (hr'.symm.trans hr))
    exact ⟨hgood, (asRead_eq_iff cls n t o).mp hsame, hfits⟩
  · rintro ⟨hgood, hkept, hfits⟩
    obtain ⟨ctx, hr⟩ := hread hfits
    rw [(asRead_eq_iff cls n t o).mpr hkept] at hr
    exact ⟨bytes, ctx, hwrite.ok hfits ⟨hgood, hfits⟩, hr⟩

end RoundTrip

/-! ## Two classes -/

inductive Sample where
  | inner
  | outer
  deriving DecidableEq

def sampleClass : Sample → Class Sample
  | .inner =>
    { factoryId := 1
      classId := 2
      fields := [([105], .simple (.array (.primitive (.numeric .int32))))]
      nodup := by decide
      short := by decide }
  | .outer =>
    { factoryId := 1
      classId := 1
      fields := [([112], .portable .inner .passPointer), ([97], .portableArray .inner)]
      raw := some [.single .string]
      nodup := by decide
      short := by decide }

def sampleInner (values : Option (List (BitVec 32))) : Nested sampleClass 1 .inner :=
  ⟨(values, ()), ()⟩

def sampleOuter (p : Option (Nested sampleClass 1 .inner))
    (a : Option (List (Nested sampleClass 1 .inner))) : Nested sampleClass 2 .outer :=
  ⟨(p, a, ()), ([65], ())⟩

def sampleContext : Context :=
  match write .big sampleClass (sampleOuter (some (sampleInner (some [1])))
      (some [sampleInner (some [2])])) (empty 0) [] with
  | .ok (_, ctx) => ctx
  | .error _ => .empty 0

theorem sample_defines : Defines sampleClass sampleContext := by
  intro t
  cases t <;> decide +kernel

/-- An object with an array that is null and a portable array that is empty. -/
theorem roundTrips_sample :
    Defines sampleClass sampleContext ∧
      RoundTrips .big sampleClass sampleContext (sampleOuter (some (sampleInner none)) (some []))
        [7] [8, 9] :=
  ⟨sample_defines, (roundTrips_iff sample_defines _ _ _).mpr
    ⟨by decide +kernel, by decide +kernel, by decide +kernel⟩⟩

def sampleValues (o : Nested sampleClass 2 .outer) : Option (Option (List (BitVec 32))) :=
  let values : Option (Nested sampleClass 1 .inner) × Option (List (Nested sampleClass 1 .inner)) ×
    Unit := o.values
  values.1.map fun r => (show Option (List (BitVec 32)) × Unit from r.values).1

/-- An empty array is read as none, and a null pointer is dereferenced. -/
theorem sample_lost :
    Defines sampleClass sampleContext ∧
      ¬ RoundTrips .big sampleClass sampleContext (sampleOuter (some (sampleInner (some []))) none)
        [] [] ∧
      ¬ RoundTrips .big sampleClass sampleContext (sampleOuter none none) [] [] := by
  refine ⟨sample_defines, ?_, ?_⟩
  · rintro ⟨out, ctx, hwrite, hread⟩
    have hvalues : (write .big sampleClass (sampleOuter (some (sampleInner (some []))) none)
        sampleContext []).toOption.bind (fun r => (read .big sampleClass 2 .outer sampleContext
          (r.1 ++ []) ([] : Output).length).toOption.map fun q => sampleValues q.1) =
            some (some none) := by
      decide +kernel
    rw [hwrite] at hvalues
    change (read .big sampleClass 2 .outer sampleContext (out ++ []) ([] : Output).length).toOption.map
      _ = _ at hvalues
    rw [hread] at hvalues
    cases hvalues
  · rintro ⟨out, ctx, hwrite, -⟩
    have hnull : (write .big sampleClass (sampleOuter none none) sampleContext []).toOption.isSome =
        false := by decide +kernel
    rw [hwrite] at hnull
    cases hnull

end HazelcastClient.Serialization.Portable
