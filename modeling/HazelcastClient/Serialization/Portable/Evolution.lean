import HazelcastClient.Serialization.Portable.Unseen

/-!
# Another version of a class

A `MorphingPortableReader` reads an object that was written with another version of its
class. A field that the written class does not have is read as a default, but only if it is no
portable. A number that was written with fewer bits is widened through the narrower types; a
`char` goes through a signed number of eight bits.
-/

namespace HazelcastClient.Serialization.Portable

open Compact (Name Output intMax)

open BitVec (setWidth toInt toNat)

open ByteParser RandomAccess Layout List Simple Reader Context Reading

/-! ## Requests -/

abbrev Simple.byte : Simple := .single (.primitive (.numeric .int8))
abbrev Simple.char : Simple := .single .char
abbrev Simple.short : Simple := .single (.primitive (.numeric .int16))
abbrev Simple.int : Simple := .single (.primitive (.numeric .int32))
abbrev Simple.long : Simple := .single (.primitive (.numeric .int64))

def Kind.default {Ty : Type} {R : Ty → Type} : (k : Kind Ty) → k.Val R
  | .simple s => s.default
  | .portable _ _ => none
  | .portableArray _ => none

def Simple.narrower : Simple → List Simple
  | .single (.primitive (.numeric .int16)) => [.byte]
  | .single (.primitive (.numeric .int32)) => [.byte, .char, .char16, .short]
  | .single (.primitive (.numeric .int64)) => [.byte, .char, .char16, .short, .int]
  | _ => []

/-- The number that an integral value is. A `byte` is not negative, and a `char` is its code unit
of 16 bits. -/
def Simple.number : (s : Simple) → s.Val → ℤ
  | .single (.primitive (.numeric .int8)), v => toNat v
  | .single (.primitive (.numeric .int16)), v => toInt v
  | .single (.primitive (.numeric .int32)), v => toInt v
  | .single (.primitive (.numeric .int64)), v => toInt v
  | .single .char, v => (BitVec.signExtend 16 v).toNat
  | .char16, v => toNat v
  | _, _ => 0

/-- The number that is read in the place of the value. -/
def Simple.morphed : (s : Simple) → s.Val → ℤ
  | .single .char, v => toInt v
  | .char16, v => (setWidth 8 v).toInt
  | s, v => s.number v

/-- A `char` has a code unit below 128. -/
def Simple.Ascii : (s : Simple) → s.Val → Prop
  | .single .char, v => (BitVec.signExtend 16 v).toNat < 128
  | .char16, v => toNat v < 128
  | _, _ => True

theorem codeUnit_eq_iff (u : BitVec 16) : (u.setWidth 8).toInt = u.toNat ↔ u.toNat < 128 := by
  have hlt := u.isLt
  rw [BitVec.toInt_eq_toNat_cond, BitVec.toNat_setWidth]
  split <;> omega

theorem Simple.morphed_eq_iff (s : Simple) (v : s.Val) : s.morphed v = s.number v ↔ s.Ascii v := by
  cases s with
  | char16 => exact codeUnit_eq_iff v
  | array i => exact iff_of_true rfl trivial
  | single i =>
    cases i with
    | char =>
      have h := codeUnit_eq_iff (BitVec.signExtend 16 v)
      rwa [setWidth_signExtend] at h
    | string => exact iff_of_true rfl trivial
    | primitive p =>
      cases p with
      | boolean => exact iff_of_true rfl trivial
      | numeric n => cases n <;> exact iff_of_true rfl trivial

/-! ## Widening -/

/-- The method reads the number `z`. -/
def Gives {w : ℕ} (p : Input (BitVec w)) (data : List UInt8) (pos : ℕ) (z : ℤ) : Prop :=
  ∃ v next, p data pos = .ok (v, next) ∧ v.toInt = z

theorem Gives.signExtend {w : ℕ} {p : Input (BitVec w)} {data : List UInt8} {pos : ℕ} {z : ℤ}
    (h : Gives p data pos z) {w' : ℕ} (hle : w ≤ w') :
    Gives (p >>= fun v => (pure (BitVec.signExtend w' v) : Input (BitVec w'))) data pos z := by
  obtain ⟨v, next, hok, hz⟩ := h
  refine ⟨BitVec.signExtend w' v, next, ?_, ?_⟩
  · rw [Parser.bind_of_ok hok]
    rfl
  · rw [BitVec.toInt_signExtend_of_le hle, hz]

theorem byte_toInt (v : BitVec 8) : (setWidth 16 v).toInt = v.toNat := by
  have hlt := v.isLt
  rw [BitVec.toInt_eq_toNat_of_lt, BitVec.toNat_setWidth_of_le (by decide)]
  rw [BitVec.toNat_setWidth_of_le (by decide)]
  omega

section Widening

variable {order : ByteOrder} {Ty : Type} {cls : Ty → Class Ty} {R : Ty → Type} {format : Format R}
  {data : List UInt8} {pos : ℕ} {r : Reader} {i place : ℕ} {fd : FieldDefinition} {name : Name}
  {s : Simple} {v : s.Val}
  (hknows : r.Knows i (⟨name, .simple s, v⟩ : Entry R) fd)
  (h : Found order cls format data r.offset i ⟨name, .simple s, v⟩ place)

include hknows h

theorem gives_morphShort (hs : s ∈ [byte, .short]) :
    Gives (r.morphShort order s.fieldType name) data pos (s.morphed v) := by
  rcases mem_pair.mp hs with rfl | rfl
  · have hread : r.readBase order name .byte data pos = .ok (v, _) := readBase_found hknows h
    refine ⟨setWidth 16 v, _, Parser.bind_of_ok hread, ?_⟩
    exact byte_toInt v
  · exact ⟨v, _, readBase_found hknows h, rfl⟩

/-- A `char` is read as a signed number of eight bits, whatever it was written as. -/
theorem gives_char (hs : s ∈ [char, .char16]) :
    Gives (r.readBase order name .char) data pos (s.morphed v) := by
  rcases mem_pair.mp hs with rfl | rfl
  · exact ⟨v, _, readBase_found hknows h, rfl⟩
  · have hreads : Reads intMax (readSimple order .char) (simpleBytes order .char16 v)
        (setWidth 8 v) := (reads_readChar16 v).bind_pure (fun w => w.setWidth 8) rfl
    exact ⟨setWidth 8 v, _, readBase_as hknows h rfl hreads, rfl⟩

section

variable (hs : s ∈ [byte, .char, .char16, .short, .int])

include hs

theorem gives_morphInt : Gives (r.morphInt order s.fieldType name) data pos (s.morphed v) := by
  simp only [mem_cons, not_mem_nil, or_false] at hs
  rcases hs with rfl | rfl | rfl | rfl | rfl
  · exact (gives_morphShort hknows h (by decide)).signExtend (by decide)
  · exact (gives_char hknows h (by decide)).signExtend (by decide)
  · exact (gives_char hknows h (by decide)).signExtend (by decide)
  · exact (gives_morphShort hknows h (by decide)).signExtend (by decide)
  · exact ⟨v, _, readBase_found hknows h, rfl⟩

theorem gives_morphLong : Gives (r.morphLong order s.fieldType name) data pos (s.morphed v) := by
  have hwide : Gives (r.morphInt order s.fieldType name >>= fun w =>
      (pure (BitVec.signExtend 64 w) : Input (BitVec 64))) data pos (s.morphed v) :=
    (gives_morphInt hknows h hs).signExtend (by decide)
  simp only [mem_cons, not_mem_nil, or_false] at hs
  rcases hs with rfl | rfl | rfl | rfl | rfl <;> exact hwide

end

theorem read_widened (hdefault : r.isDefault = false) {s' : Simple} (hs : s ∈ s'.narrower) :
    ∃ v' next, r.read order name s' data pos = .ok (v', next) ∧ s'.number v' = s.morphed v := by
  have hmorph : r.read order name s' data pos = r.morph order s.fieldType name s' data pos := by
    have htype : fd.type = s.fieldType := hknows.type
    unfold Reader.read
    rw [if_neg (by simp [hdefault]), hknows.find, ← htype]
  rw [hmorph]
  unfold narrower at hs
  split at hs
  · exact gives_morphShort hknows h (mem_append_left [short] hs)
  · exact gives_morphInt hknows h (mem_append_left [int] hs)
  · exact gives_morphLong hknows h hs
  · cases hs

end Widening

/-! ## The reader of another version -/

/-- The definition leads to the fields of the class, and to no others. -/
structure Describes {Ty : Type} (cls : Ty → Class Ty) (t : Ty) (cd : ClassDefinition) : Prop where
  count : cd.getFieldCount = (cls t).fields.length
  found : ∀ j field, (cls t).fields[j]? = some field →
    ∃ fd, cd.find field.1 = some fd ∧ fd.index = j ∧ fd.type = field.2.fieldType
  missing : ∀ name ∉ (cls t).fields.map Prod.fst, cd.find name = none

section Describes

variable {Ty : Type} {cls : Ty → Class Ty} {t : Ty}

theorem find_none {cd : ClassDefinition} {name : Name}
    (h : name ∉ cd.fields.map FieldDefinition.name) : cd.find name = none := by
  by_contra hsome
  obtain ⟨fd, hfind⟩ := Option.ne_none_iff_exists'.mp hsome
  obtain ⟨hmem, rfl⟩ := mem_of_find hfind
  exact h (mem_map_of_mem hmem)

theorem describes_definition (version : Ty → Int32) (t : Ty) :
    Describes cls t (definition cls version t) where
  count := fieldDefinitions_length
  found := fun j field hj => ⟨_, find_definition hj, rfl, rfl⟩
  missing := fun name hname => find_none (by
    rw [definition, fieldDefinitions_names]
    exact hname)

/-- A definition from the stream describes a class with plain names. -/
theorem describes_numbered {fds : List FieldDefinition} (h : Numbered cls t fds)
    (hplain : Plain cls t) (factoryId classId version : Int32) :
    Describes cls t (.build factoryId classId version fds) := by
  have hnames : fds.map FieldDefinition.name = (cls t).fields.map Prod.fst := by
    rw [h.names]
    exact map_congr_left hplain
  rw [h.build hplain]
  refine ⟨h.length, fun j field hj => ?_, fun name hname => find_none (hnames ▸ hname)⟩
  obtain ⟨fd, hget, hindex, hname, htype⟩ := h.get hj
  have hfind : (⟨factoryId, classId, version, fds⟩ : ClassDefinition).find fd.name = some fd :=
    find_of_mem (h.nodup hplain) (mem_of_getElem? hget)
  rw [hname, hplain field (mem_of_getElem? hj)] at hfind
  exact ⟨fd, hfind, hindex, htype⟩

end Describes

section Requests

variable {Ty : Type} {cls : Ty → Class Ty} {R : Ty → Type} {t : Ty} {Ty' : Type} {R' : Ty' → Type}
  {order : ByteOrder} {format : Format R} {data : List UInt8} {pos : ℕ} {r : Reader}
  {o : Obj cls R t} {version : Int32} {name : Name}

/-- What a request to the reader gives: the default for a field that the written class does not
have, and the written number for a number that was written with fewer bits. -/
structure Preserves (order : ByteOrder) (r : Reader)
    (nested : (t : Ty') → Int32 → Int32 → Reading (R' t)) (ctx : Context) (data : List UInt8)
    (o : Obj cls R t) (name : Name) (k : Kind Ty') : Prop where
  missing : name ∉ (cls t).fields.map Prod.fst →
    ∀ pos, r.readField order nested name k ctx data pos = .ok (k.default, ctx, pos)
  widened : ∀ s v s', (⟨name, .simple s, v⟩ : Entry R) ∈ o.entries cls → k = .simple s' →
    s ∈ s'.narrower → ∀ pos, ∃ v' next, r.read order name s' data pos = .ok (v', next) ∧
      s'.number v' = s.number v

/-- The requests that are answered like that: a missing field is no portable, and a `char` that is
widened has a code unit below 128. -/
structure Answered (o : Obj cls R t) (name : Name) (k : Kind Ty') : Prop where
  missing : name ∉ (cls t).fields.map Prod.fst → ∃ s, k = .simple s
  widened : ∀ s v s', (⟨name, .simple s, v⟩ : Entry R) ∈ o.entries cls → k = .simple s' →
    s ∈ s'.narrower → s.Ascii v

theorem readField_default (hdefault : r.isDefault = false) (hfind : r.cd.find name = none)
    (nested : (t : Ty') → Int32 → Int32 → Reading (R' t)) (s : Simple) (ctx : Context) (pos : ℕ) :
    r.readField order nested name (.simple s) ctx data pos = .ok (s.default, ctx, pos) := by
  have hread : r.read order name s data pos = .ok (s.default, pos) := by
    unfold Reader.read
    rw [if_neg (by simp [hdefault]), hfind]
    rfl
  rw [readField, lift, hread]
  rfl

theorem readField_portable (hraw : r.raw = false) (hfind : r.cd.find name = none)
    (nested : (t : Ty') → Int32 → Int32 → Reading (R' t)) {k : Kind Ty'} (hk : ¬ ∃ s, k = .simple s)
    (ctx : Context) (pos : ℕ) :
    r.readField order nested name k ctx data pos = .error (.thrown (.missingField name)) := by
  cases k with
  | simple s => exact absurd ⟨s, rfl⟩ hk
  | portable t style | portableArray t =>
    exact bind_lift_error (setPosition_missing hraw hfind)

theorem preserves_iff_answered (hdefault : r.isDefault = false) (hraw : r.raw = false)
    (hoffset : r.offset = pos + 12) (hcd : Describes cls t r.cd)
    (h : ObjectAt order cls format data o version pos)
    (hfits : pos + objectSize order cls format o ≤ intMax)
    (nested : (t : Ty') → Int32 → Int32 → Reading (R' t)) (ctx : Context) (name : Name)
    (k : Kind Ty') : Preserves order r nested ctx data o name k ↔ Answered o name k := by
  have hread : ∀ s v s' pos, (⟨name, .simple s, v⟩ : Entry R) ∈ o.entries cls →
      s ∈ s'.narrower → ∃ v' next, r.read order name s' data pos = .ok (v', next) ∧
        s'.number v' = s.morphed v := by
    intro s v s' pos he hs
    obtain ⟨j, hj⟩ := List.getElem?_of_mem he
    obtain ⟨place, hfound⟩ := found_of_objectAt h hfits hj
    obtain ⟨fd, hfind, hindex, htype⟩ := hcd.found j _ (entries_getElem? hj)
    exact read_widened ⟨hraw, hfind, hindex, htype⟩ (hoffset ▸ hfound) hdefault hs
  constructor
  · intro hpreserves
    refine ⟨fun hname => ?_, fun s v s' he hk hs => ?_⟩
    · by_contra hsimple
      have hrefused : r.readField order nested name k ctx data 0 = .error _ :=
        readField_portable hraw (hcd.missing name hname) nested hsimple ctx 0
      rw [hpreserves.missing hname 0] at hrefused
      cases hrefused
    · obtain ⟨v', next, hok, hnumber⟩ := hpreserves.widened s v s' he hk hs 0
      obtain ⟨v'', next', hok', hmorphed⟩ := hread s v s' 0 he hs
      rw [hok] at hok'
      obtain ⟨rfl, -⟩ := Prod.mk.inj (Except.ok.inj hok')
      exact (s.morphed_eq_iff v).mp (hmorphed.symm.trans hnumber)
  · intro hanswered
    refine ⟨fun hname pos => ?_, fun s v s' he hk hs pos => ?_⟩
    · obtain ⟨s, rfl⟩ := hanswered.missing hname
      exact readField_default hdefault (hcd.missing name hname) nested s ctx pos
    · obtain ⟨v', next, hok, hmorphed⟩ := hread s v s' pos he hs
      have hsame := (s.morphed_eq_iff v).mpr (hanswered.widened s v s' he hk hs)
      exact ⟨v', next, hok, hmorphed.trans hsame⟩

end Requests

/-! ## Where the definition comes from -/

/-- How a context comes to the definition of the written version. It is registered with this
version; or the context has only those definitions of the classes that it has derived from
streams, and no name of a field has a zero byte, where a derived name ends. -/
inductive Recognizes {Ty : Type} (cls : Ty → Class Ty) (v : Int32) (version : Ty → Int32) (t : Ty)
    (ctx : Context) : Prop
  | registered (hversion : ¬ version t < 0)
      (hlookup : ctx.lookup (cls t).factoryId (cls t).classId (version t) =
        some (definition cls version t))
  | derived (hclasses : Consistent cls v version) {k : Known} (hknows : Knows cls v version k ctx)
      (hplain : Plain cls t)

theorem createReader_recognizes {order : ByteOrder} {Ty : Type} {cls : Ty → Class Ty} {t : Ty}
    {ctx : Context} {v portableVersion : Int32} {version : Ty → Int32}
    (h : Recognizes cls v version t ctx) {n : ℕ} {o : Obj cls (Nested cls n) t} {data : List UInt8}
    {pos : ℕ} (hobject : ObjectAt order cls (nestedFormat order cls version n) data o (version t) pos)
    (hfits : pos + objectSize order cls (nestedFormat order cls version n) o ≤ intMax)
    (hother : version t ≠ portableVersion) :
    ∃ cd ctx', Describes cls t cd ∧ createReader order (n + 1) (cls t).factoryId
      (cls t).classId (version t) portableVersion ctx data (pos + 4) =
        lift (new order cd false) ctx' data (pos + 4) := by
  cases h with
  | registered hversion hlookup =>
    have hlookup' : ctx.lookup (cls t).factoryId (cls t).classId
        (if version t < 0 then ctx.version else version t) = some (definition cls version t) := by
      rwa [if_neg hversion]
    refine ⟨_, ctx, describes_definition version t, ?_⟩
    rw [createReader_known hlookup', if_neg hversion, decide_eq_false hother]
  | @derived hclasses k hknows hplain =>
    by_cases hkey : key cls version t ∈ k
    · have hcreate : createReader order (n + 1) (cls t).factoryId (cls t).classId (version t)
          portableVersion ctx = _ := createReader_registered hclasses hknows hkey portableVersion
      rw [decide_eq_false hother] at hcreate
      exact ⟨_, ctx, describes_numbered (numbered_definition version t) hplain _ _ _,
        congrFun₂ hcreate data (pos + 4)⟩
    · obtain ⟨ctx', hcreate, -⟩ := createReader_derived hclasses (discoversNested hclasses order n)
        (startsWithVersion order cls version n) hobject hfits hknows hkey portableVersion
      rw [decide_eq_false hother] at hcreate
      exact ⟨_, ctx', describes_numbered (numbered_deriveFields o (true, k)) hplain _ _ _, hcreate⟩

/-- A class with a `char`, one with a number in its place, and one with a portable that the others
do not have. -/
inductive Version where
  | first
  | second
  | third
  deriving DecidableEq

def versionClass : Version → Class Version
  | .first =>
    { factoryId := 1
      classId := 1
      version := some 1
      fields := [([99], .simple .char16)]
      nodup := by decide
      short := by decide }
  | .second =>
    { factoryId := 1
      classId := 1
      version := some 2
      fields := [([99], .simple .int)]
      nodup := by decide
      short := by decide }
  | .third =>
    { factoryId := 1
      classId := 1
      version := some 3
      fields := [([112], .portable .first .writeNullPortable)]
      nodup := by decide
      short := by decide }

def versionObject (c : BitVec 16) : Nested versionClass 1 .first := ⟨(c, ()), ()⟩

def versionNumber (o : Nested versionClass 1 .second) : ℤ :=
  toInt (show BitVec 32 × Unit from o.values).1

def versionContext : Context :=
  let ctx := empty 0
  let register ctx t := (ctx.registerClassDefinition (definition versionClass
    (fun t => (versionClass t).getVersion 0) t)).toOption.elim ctx Prod.snd
  register (register (register ctx .first) .second) .third

theorem version_defines : Defines versionClass versionContext := by
  intro t
  cases t <;> decide +kernel

end HazelcastClient.Serialization.Portable
