import HazelcastClient.Serialization.Portable.ReaderLaw

/-!
# Definitions from the stream

`read_class_definition` on the bytes of an object. The definition that it derives has the
names of the fields up to their first zero byte, and no ids for an array of portables that is
null or empty. It is registered if no portable is null and no array of them is null or empty;
so are the definitions of the nested objects that it comes by.
-/

namespace HazelcastClient.Serialization.Portable

open Compact (Name intMax)

open ByteParser RandomAccess Layout List Reading Kind Compact

/-- The name that is found in a stream, a C string. -/
def cut (name : Name) : Name := name.takeWhile fun b => decide (b ≠ 0)

section Fields

variable {Ty : Type} (cls : Ty → Class Ty) (version : Ty → Int32) {R : Ty → Type} {K : Type}

/-- Whether the class is still to be registered, and the state after the classes of the nested
objects. -/
def Kind.learn (learn : (t : Ty) → R t → K → K) : (k : Kind Ty) → k.Val R → Bool × K → Bool × K
  | .simple _, _, s => s
  | .portable _ _, none, s => (false, s.2)
  | .portable t _, some r, s => if s.1 then (true, learn t r s.2) else (false, s.2)
  | .portableArray _, none, s => (false, s.2)
  | .portableArray _, some [], s => (false, s.2)
  | .portableArray t, some (r :: _), s => (s.1, learn t r s.2)

/-- The ids and the version of a field; `register` is whether the class is still to be
registered. -/
def Kind.derive (own : Int32) (register : Bool) : (k : Kind Ty) → k.Val R → Int32 × Int32 × Int32
  | .simple _, _ => (0, 0, own)
  | .portable t _, none => ((cls t).factoryId, (cls t).classId, own)
  | .portable t _, some _ =>
    ((cls t).factoryId, (cls t).classId, if register then version t else own)
  | .portableArray _, none => (0, 0, own)
  | .portableArray _, some [] => (0, 0, own)
  | .portableArray t, some (_ :: _) => ((cls t).factoryId, (cls t).classId, version t)

def Entry.derive (own : Int32) (register : Bool) (i : ℕ) (e : Entry R) : FieldDefinition :=
  let target := e.kind.derive cls version own register e.value
  ⟨i, cut e.name, e.kind.fieldType, target.1, target.2.1, target.2.2⟩

/-- The definitions of fields that are numbered from `i` on. -/
def deriveFields (learn : (t : Ty) → R t → K → K) (own : Int32) :
    ℕ → Bool × K → List (Entry R) → List FieldDefinition
  | _, _, [] => []
  | i, s, e :: es =>
    e.derive cls version own s.1 i ::
      deriveFields learn own (i + 1) (e.kind.learn learn e.value s) es

end Fields

def learnEntries {Ty : Type} {R : Ty → Type} {K : Type} (learn : (t : Ty) → R t → K → K)
    (es : List (Entry R)) (s : Bool × K) : Bool × K :=
  es.foldl (fun s e => e.kind.learn learn e.value s) s

section Law

variable {order : ByteOrder} {Ty : Type} {cls : Ty → Class Ty} {version : Ty → Int32}
  {R : Ty → Type} {format : Format R} {K : Type} {inv : K → Context → Prop}
  {learn : (t : Ty) → R t → K → K} {data : List UInt8} {pos : ℕ} {ctx : Context}
  {type : FieldType}

theorem readHeader_at {name : Name} (hshort : name.length ≤ 32767)
    (htype : FieldType.ofByte type.toByte = type)
    (hat : At data pos (Writer.fieldHeader order name type))
    (hfits : pos + (name.length + 3) ≤ intMax) :
    readHeader order data pos = .ok ((cut name, type), pos + (name.length + 3)) := by
  rw [Writer.fieldHeader, append_assoc] at hat
  have hlen := reads_readInt16 hshort data pos hat.left
  have hrest := hat.right
  rw [ByteOrder.bytes_length] at hlen hrest
  have hchars : ofInput (readBytes name.length) data (pos + 2) =
      .ok (name, pos + 2 + name.length) :=
    reads_ofInput (reads_readBytes name) data (pos + 2) hrest.left (by omega)
  have htail : ofInput readByte data (pos + 2 + name.length) =
      .ok (type.toByte, pos + 2 + name.length + 1) :=
    reads_ofInput (reads_readByte type.toByte) data _ hrest.right (by
      rw [length_singleton]
      omega)
  have hneg : ¬ (name.length : ℤ) < 0 := Int.not_lt.mpr (Int.natCast_nonneg _)
  unfold readHeader
  rw [Parser.bind_of_ok (hlen (by omega)), if_neg hneg, Int.toNat_natCast,
    Parser.bind_of_ok hchars, Parser.bind_of_ok htail, Parser.pure_apply, htype]
  have hend : pos + 2 + name.length + 1 = pos + (name.length + 3) := by omega
  rw [hend]
  rfl

theorem Simple.fieldType_plain (s : Simple) :
    s.fieldType ≠ .portable ∧ s.fieldType ≠ .portableArray ∧ ∀ b, s.fieldType ≠ .unknown b := by
  rcases s with ((_ | n) | _ | _) | _ | ((_ | n) | _ | _)
  all_goals first | cases n <;> exact ⟨nofun, nofun, nofun⟩ | exact ⟨nofun, nofun, nofun⟩

theorem ofByte_fieldType (k : Kind Ty) : FieldType.ofByte k.fieldType.toByte = k.fieldType := by
  cases k with
  | simple s => exact FieldType.ofByte_toByte s.fieldType_plain.2.2
  | portable t style | portableArray t => rfl

/-- The definition of the class of a nested object is derived, and the state says what is
registered then. -/
def DiscoversNested (readNested : Int32 → Int32 → Int32 → Reading ClassDefinition)
    (cls : Ty → Class Ty) (version : Ty → Int32) (format : Format R)
    (learn : (t : Ty) → R t → K → K) (inv : K → Context → Prop) : Prop :=
  ∀ (t : Ty) (r : R t) (k : K) (ctx : Context) (data : List UInt8) (pos : ℕ), inv k ctx →
    At data pos (format.bytes r pos) → pos + format.size r ≤ intMax →
    ∃ cd ctx' pos', readNested (cls t).factoryId (cls t).classId (version t) ctx data (pos + 4) =
      .ok (cd, ctx', pos') ∧ inv (learn t r k) ctx'

/-- The bytes of an object begin with the version of its class. -/
def StartsWithVersion (order : ByteOrder) (version : Ty → Int32) (format : Format R) : Prop :=
  ∀ (t : Ty) (r : R t) (pos : ℕ), ∃ rest,
    format.bytes r pos = storeInt32 order (version t) ++ rest

section Fields

variable {readNested : Int32 → Int32 → Int32 → Reading ClassDefinition}
  (hnested : DiscoversNested readNested cls version format learn inv)
  (hstart : StartsWithVersion order version format) (own : Int32) {offset i place : ℕ}
  {s : Bool × K} {e : Entry R} {t : Ty}

include hnested hstart

omit hnested in
theorem version_at {r : R t} (hat : At data pos (format.bytes r pos))
    (hfits : pos + format.size r ≤ intMax) :
    readInt32 order data pos = .ok (version t, pos + 4) := by
  obtain ⟨rest, hrest⟩ := hstart t r pos
  have hsize : 4 ≤ format.size r := by
    rw [← format.length r pos, hrest, length_append, storeInt32_length]
    omega
  rw [hrest] at hat
  exact readInt32_at hat.left (by omega)

theorem readPortableTarget_at {style : NullStyle} {v : Option (R t)} (hinv : inv s.2 ctx)
    (h : PortableAt order cls format data v pos) :
    ∃ ctx' pos', readPortableTarget order readNested own s.1 ctx data pos =
        .ok ((((portable t style).learn learn v s).1,
          (portable t style).derive cls version own s.1 v), ctx', pos') ∧
      inv ((portable t style).learn learn v s).2 ctx' := by
  have hfits := h.fits
  obtain ⟨hfactory, hclass⟩ := ids_at h.ids (by omega)
  unfold readPortableTarget
  rw [bind_lift_ok h.flag, bind_lift_ok hfactory, bind_lift_ok hclass]
  obtain ⟨register, k⟩ := s
  cases v with
  | none =>
    refine ⟨ctx, pos + 9, ?_, hinv⟩
    rw [if_neg (by simp)]
    rfl
  | some r =>
    cases register with
    | false => exact ⟨ctx, pos + 9, rfl, hinv⟩
    | true =>
      obtain ⟨hobject, hsize⟩ := h.object r rfl
      have hversion := version_at hstart hobject hsize
      obtain ⟨cd, ctx', pos', hok, hinv'⟩ :=
        hnested t r k ctx data (pos + 9) hinv hobject hsize
      refine ⟨ctx', pos', ?_, hinv'⟩
      rw [if_pos (by simp)]
      exact (bind_lift_ok hversion).trans (bind_of_ok hok)

theorem readArrayTarget_at {v : Option (List (R t))} (hinv : inv s.2 ctx)
    (h : ArrayAt order cls format data v pos) :
    ∃ ctx' pos', readArrayTarget order readNested own s.1 ctx data pos =
        .ok ((((portableArray t).learn learn v s).1,
          (portableArray t).derive cls version own s.1 v), ctx', pos') ∧
      inv ((portableArray t).learn learn v s).2 ctx' := by
  unfold readArrayTarget
  rw [bind_lift_ok h.length]
  obtain ⟨register, k⟩ := s
  cases v with
  | none => exact ⟨ctx, pos + 4, rfl, hinv⟩
  | some rs =>
    cases rs with
    | nil => exact ⟨ctx, pos + 4, rfl, hinv⟩
    | cons r rs =>
      obtain ⟨htoInt, htable, hobjects, hsize⟩ := h.objects (r :: rs) rfl
      have hfits := h.fits
      have hpos : 0 < arrayLength (some (r :: rs)) := by
        rw [Int32.lt_iff_toInt_lt, arrayLength, htoInt, length_cons]
        exact Int.natCast_succ_pos rs.length
      obtain ⟨hfactory, hclass⟩ := ids_at h.ids (by omega)
      set start := pos + 12 + (r :: rs).length * 4 with hplace
      have hbound := hobjects.bound
      have hobject : At data start (format.bytes r start) := hobjects.left
      rw [total_cons] at hsize
      rw [length_cons] at hplace
      have hfirst : readInt32 order data (pos + 12) = .ok (.ofNat start, pos + 12 + 4) :=
        readInt32_position htable.left (by omega) (by omega)
      have hseek : seek (Int32.ofNat start).toInt data (pos + 12 + 4) = .ok ((), start) :=
        seek_ofNat (by omega) (by omega)
      have hversion := version_at hstart hobject (by omega)
      obtain ⟨cd, ctx', pos', hok, hinv'⟩ :=
        hnested t r k ctx data start hinv hobject (by omega)
      refine ⟨ctx', pos', ?_, hinv'⟩
      rw [if_pos hpos, bind_lift_ok hfactory, bind_lift_ok hclass,
        bind_lift_ok hfirst, bind_lift_ok hseek, bind_lift_ok hversion,
        bind_of_ok hok]
      rfl

omit hnested hstart in
theorem readTarget_plain (hportable : type ≠ .portable) (harray : type ≠ .portableArray)
    (register : Bool) :
    readTarget order readNested own type register = pure (register, 0, 0, own) := by
  unfold readTarget
  split
  · exact absurd rfl hportable
  · exact absurd rfl harray
  · rfl

theorem readTarget_at (hinv : inv s.2 ctx) (h : Found order cls format data offset i e place) :
    ∃ ctx' pos', readTarget order readNested own e.kind.fieldType s.1 ctx data
        (place + (e.name.length + 3)) = .ok (((e.kind.learn learn e.value s).1,
          e.kind.derive cls version own s.1 e.value), ctx', pos') ∧
      inv (e.kind.learn learn e.value s).2 ctx' := by
  have hat := h.payload
  have hfits := h.payload_fits
  obtain ⟨name, kind, v⟩ := e
  cases kind with
  | simple t =>
    obtain ⟨hportable, harray, -⟩ := t.fieldType_plain
    dsimp only [fieldType]
    rw [readTarget_plain own hportable harray]
    exact ⟨ctx, _, rfl, hinv⟩
  | portable t style => exact readPortableTarget_at hnested hstart own hinv (portableAt hat hfits)
  | portableArray t => exact readArrayTarget_at hnested hstart own hinv (arrayAt hat hfits)

theorem readFieldDefinition_at (hinv : inv s.2 ctx)
    (h : Found order cls format data offset i e place) (pos : ℕ) :
    ∃ ctx' pos', readFieldDefinition order readNested own offset i s.1 ctx data pos =
        .ok (((e.kind.learn learn e.value s).1, e.derive cls version own s.1 i), ctx', pos') ∧
      inv (e.kind.learn learn e.value s).2 ctx' := by
  have hfits := h.payload_fits
  have hheader := readHeader_at h.short (ofByte_fieldType e.kind) h.header (by omega)
  obtain ⟨ctx', pos', hok, hinv'⟩ := readTarget_at hnested hstart own hinv h
  refine ⟨ctx', pos', ?_, hinv'⟩
  unfold readFieldDefinition
  rw [bind_lift_ok h.follow, bind_lift_ok hheader]
  exact bind_of_ok hok

theorem readFieldDefinitions_at (es : List (Entry R)) {defs : List FieldDefinition}
    (hinv : inv s.2 ctx) (hfound : ∀ j e, es[j]? = some e →
      ∃ place, Found order cls format data offset (defs.length + j) e place) (pos : ℕ) :
    ∃ ctx' pos', readFieldDefinitions order readNested own offset es.length s.1 defs ctx data pos =
        .ok (((learnEntries learn es s).1,
          defs ++ deriveFields cls version learn own defs.length s es), ctx', pos') ∧
      inv (learnEntries learn es s).2 ctx' := by
  induction es generalizing s defs ctx pos with
  | nil => exact ⟨ctx, pos, by rw [deriveFields, append_nil]; rfl, hinv⟩
  | cons e es ih =>
    obtain ⟨place, hfirst⟩ := hfound 0 e rfl
    rw [Nat.add_zero] at hfirst
    obtain ⟨ctx₁, pos₁, hok, hinv₁⟩ := readFieldDefinition_at hnested hstart own hinv hfirst pos
    set fd := e.derive cls version own s.1 defs.length with hfd
    have hlength : (defs ++ [fd]).length = defs.length + 1 := length_append
    have hadd : (addField defs fd).map (fun defs => (defs, ctx₁)) = .ok (defs ++ [fd], ctx₁) := by
      rw [addField, if_pos (by rw [hfd]; rfl)]
      rfl
    have hrest : ∀ j e', es[j]? = some e' → ∃ place, Found order cls format data offset
        ((defs ++ [fd]).length + j) e' place := by
      intro j e' hj
      rw [hlength, Nat.add_assoc, Nat.add_comm 1]
      exact hfound (j + 1) e' hj
    obtain ⟨ctx₂, pos₂, hok₂, hinv₂⟩ := ih hinv₁ hrest pos₁
    refine ⟨ctx₂, pos₂, ?_, hinv₂⟩
    rw [length_cons, readFieldDefinitions, bind_of_ok hok]
    rw [hlength, append_assoc, singleton_append] at hok₂
    exact (bind_onContext_ok hadd).trans hok₂

end Fields

end Law

end HazelcastClient.Serialization.Portable
