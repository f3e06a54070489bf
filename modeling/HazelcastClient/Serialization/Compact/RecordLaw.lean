import HazelcastClient.Serialization.Compact.ReaderLaw
import HazelcastClient.Serialization.Compact.WriterLaw

/-!
# Compact records on a stream

The fields of a sound schema have places of their own. A record whose fields can be written
fills a body that holds all of them, so that it comes back when the values of its fields
do. With the id of the schema in front the same is true for nested records.
-/

namespace HazelcastClient.Serialization.Compact

open ByteParser RandomAccess List Entry Reader

section Places

/-- The descriptor says where the piece is. -/
inductive FieldDescriptor.Places (d : FieldDescriptor) : Piece → Prop
  | bit {offset bit : ℕ} {value : Bool} (hkind : d.kind = .primitive .boolean)
      (hoffset : d.offset = offset) (hbit : d.bitOffset.toInt = bit) :
      Places d (.bit offset bit value)
  | range {n : Numeric} {offset : ℕ} {bytes : List UInt8} (hkind : d.kind = .primitive (.numeric n))
      (hoffset : d.offset = offset) (hsize : bytes.length = n.size) :
      Places d (.range offset bytes)
  | entry {index : ℕ} {payload : Option (List UInt8)} (harea : d.kind.area = .variableSize)
      (hindex : d.index = index) : Places d (.entry index payload)

variable {fields : FieldMap} {schema : Schema} {f g : Name × FieldDescriptor} {p q : Piece}

theorem Entry.Puts.places {order : ByteOrder} {R : Type} {c : Codec R} {σ : R → ℕ} {S : R → Prop}
    {d : FieldDescriptor} {e : Entry R} (h : e.Puts order c σ S d p) (hkind : d.kind = e.kind) :
    d.Places p := by
  cases h with
  | boolean hoffset hbit => exact .bit hkind hoffset hbit
  | number hoffset => exact .range hkind hoffset (primitiveBytes_length _ _)
  | vector hindex h | item hindex h | items hindex h => exact .entry (by rw [hkind]; rfl) hindex

section

variable (hf : f ∈ schema.fields)

include hf

theorem mem_fieldsIn {area : Area} (harea : f.2.kind.area = area) : f ∈ schema.fieldsIn area :=
  mem_filter.mpr ⟨hf, decide_eq_true harea⟩

theorem mem_fixedSize {n : Numeric} (hkind : f.2.kind = .primitive (.numeric n)) :
    f ∈ schema.fieldsIn .fixedSize ∧ f.2.kind.kindSizeInByte = n.size :=
  ⟨mem_fieldsIn hf ((area_fixedSize_iff _).mpr ⟨n, hkind⟩), by rw [hkind]; rfl⟩

theorem mem_boolean (hkind : f.2.kind = .primitive .boolean) : f ∈ schema.fieldsIn .boolean :=
  mem_fieldsIn hf ((area_boolean_iff _).mpr hkind)

end

namespace Sound

section

variable (hs : Sound fields schema)

include hs

section

variable (hf : f ∈ schema.fields)

include hf

theorem index_mem (harea : f.2.kind.area = .variableSize) :
    ∃ index : ℕ, index < schema.numberOfVarSizeFields ∧ f.2.index = index := by
  have hmem := hs.indices.mem_iff.mp (mem_map_of_mem (mem_fieldsIn hf harea))
  obtain ⟨index, hindex, heq⟩ := mem_map.mp hmem
  exact ⟨index, mem_range.mp hindex, heq.symm⟩

theorem places_within (hp : f.2.Places p) :
    p.Within schema.fixedSizeFieldsLength schema.numberOfVarSizeFields := by
  cases hp with
  | bit hkind hoffset hbit =>
    obtain ⟨hlow, hhigh, hin⟩ := hs.bits f (mem_boolean hf hkind)
    rw [Int8.le_iff_toInt_le, hbit, show (7 : Int8).toInt = 7 from rfl] at hhigh
    exact ⟨by omega, by omega⟩
  | range hkind hoffset hsize =>
    obtain ⟨hmem, hwidth⟩ := mem_fixedSize hf hkind
    have hinside := (hs.inside f hmem).2
    rw [hwidth, hoffset] at hinside
    rw [Piece.Within, hsize]
    omega
  | entry harea hindex =>
    obtain ⟨index, hlt, heq⟩ := hs.index_mem hf harea
    rw [hindex, Nat.cast_inj] at heq
    rwa [Piece.Within, heq]

theorem places_apart (hg : g ∈ schema.fields) (hne : f ≠ g) (hp : f.2.Places p)
    (hq : g.2.Places q) : p.Apart q := by
  cases hp with
  | bit hkind hoffset hbit =>
    have hmem := mem_boolean hf hkind
    cases hq with
    | bit hkind' hoffset' hbit' =>
      have hsymm : Std.Symm fun f g : Name × FieldDescriptor =>
          (f.2.offset, f.2.bitOffset) ≠ (g.2.offset, g.2.bitOffset) := ⟨fun _ _ h => h.symm⟩
      have h := hs.distinct.forall hmem (mem_boolean hg hkind') hne
      by_contra hsame
      rw [Piece.Apart, not_or, not_not, not_not] at hsame
      refine h (Prod.ext ?_ ?_)
      · rw [hoffset, hoffset', hsame.1]
      · rw [← Int8.toInt_inj, hbit, hbit', hsame.2]
    | range hkind' hoffset' hsize' =>
      obtain ⟨hmem', hwidth'⟩ := mem_fixedSize hg hkind'
      have h := hs.apart f hmem g hmem'
      rw [Piece.Apart, hsize']
      omega
    | entry harea' hindex' => trivial
  | range hkind hoffset hsize =>
    obtain ⟨hmem, hwidth⟩ := mem_fixedSize hf hkind
    cases hq with
    | bit hkind' hoffset' hbit' =>
      have h := hs.apart g (mem_boolean hg hkind') f hmem
      rw [Piece.Apart, hsize]
      omega
    | range hkind' hoffset' hsize' =>
      obtain ⟨hmem', hwidth'⟩ := mem_fixedSize hg hkind'
      have hsymm : Std.Symm fun f g : Name × FieldDescriptor =>
          f.2.offset + f.2.kind.kindSizeInByte ≤ g.2.offset ∨
            g.2.offset + g.2.kind.kindSizeInByte ≤ f.2.offset := ⟨fun _ _ h => h.symm⟩
      have h := hs.disjoint.forall hmem hmem' hne
      rw [Piece.Apart, hsize, hsize']
      omega
    | entry harea' hindex' => trivial
  | entry harea hindex =>
    cases hq with
    | bit hkind' hoffset' hbit' | range hkind' hoffset' hsize' => trivial
    | entry harea' hindex' =>
      intro hsame
      have hnodup : ((schema.fieldsIn .variableSize).map fun f => f.2.index).Nodup :=
        hs.indices.nodup_iff.mpr (nodup_range.map Nat.cast_injective)
      refine hne (inj_on_of_nodup_map hnodup (mem_fieldsIn hf harea)
        (mem_fieldsIn hg harea') ?_)
      rw [hindex, hindex', hsame]

end

end

end Sound

end Places

section Fields

variable {order : ByteOrder} {R : Type} {c : Codec R} {σ : R → ℕ} {S : R → Prop}
  {fields : FieldMap} {schema : Schema}

/-- A value of variable size has a payload, or it cannot be written at all. -/
theorem payload_or {T : Type} {write : T → Output → Result Output}
    {read : List UInt8 → ℕ → Result (Option T)} {size : T → ℕ} {survives : T → Prop}
    (h : ∀ v, FieldLaw (write v) read (some v) (size v) (survives v)) (value : Option T)
    (name : Name) (kind : FieldKind) :
    (∃ payload, Payload write read size survives value payload) ∨
      (∀ w : Writer, w.schema = schema →
        ∃ err, w.writeVariableSizeField name kind write value = .error err) ∧
        ¬ ∀ v, value = some v → survives v := by
  cases value with
  | none => exact .inl ⟨none, .absent⟩
  | some v =>
    cases h v with
    | unwritable hwrite hlost =>
      exact .inr ⟨fun w _ => writeVariableSizeField_error hwrite w name kind,
        fun hv => hlost (hv v rfl)⟩
    | written bytes hsize hwrite hread hlost =>
      exact .inl ⟨some bytes, .present hsize hwrite hread hlost⟩

/-- A field of a sound schema has a piece, or it cannot be written at all. -/
theorem puts_or (order : ByteOrder) (hs : Sound fields schema)
    (hc : ∀ r, ItemLaw (c.write r) c.read r (σ r) (S r)) {e : Entry R} {d : FieldDescriptor}
    (hf : (e.name, d) ∈ schema.fields) (hkind : d.kind = e.kind) :
    (∃ piece, e.Puts order c σ S d piece) ∨
      e.Unwritable order c schema ∧ ¬ e.Survives S := by
  match e, hf, hkind with
  | ⟨name, .primitive .boolean, value⟩, hf, hkind =>
    obtain ⟨hbit, -, hoffset, -⟩ := hs.bits _ (mem_boolean hf hkind)
    rw [Int8.le_iff_toInt_le, show (0 : Int8).toInt = 0 from rfl] at hbit
    obtain ⟨bit, hbit⟩ := Int.eq_ofNat_of_zero_le hbit
    obtain ⟨offset, hoffset⟩ := Int.eq_ofNat_of_zero_le hoffset
    exact .inl ⟨_, .boolean hoffset hbit⟩
  | ⟨name, .primitive (.numeric n), value⟩, hf, hkind =>
    obtain ⟨offset, hoffset⟩ := Int.eq_ofNat_of_zero_le (hs.inside _ (mem_fixedSize hf hkind).1).1
    exact .inl ⟨_, .number hoffset⟩
  | ⟨name, .arrayOf p, value⟩, hf, hkind =>
    obtain ⟨index, -, hindex⟩ := hs.index_mem hf (by rw [hkind]; rfl)
    have hlaw : ∀ vs, FieldLaw (writeVector order p vs) (vector order p) (some vs)
        (vectorSize p vs) (VectorSurvives p vs) := vectorLaw p
    exact (payload_or hlaw value name _).imp_left fun ⟨_, h⟩ => ⟨_, .vector hindex h⟩
  | ⟨name, .nullable i, value⟩, hf, hkind =>
    obtain ⟨index, -, hindex⟩ := hs.index_mem hf (by rw [hkind]; rfl)
    have hlaw : ∀ v, FieldLaw (writeItem order c i v) (present (readItem order c i))
        (some v) (i.size σ v) (i.Survives S v) := fun v => (itemLaw hc i v).present
    exact (payload_or hlaw value name _).imp_left fun ⟨_, h⟩ => ⟨_, .item hindex h⟩
  | ⟨name, .arrayOfNullable i, value⟩, hf, hkind =>
    obtain ⟨index, -, hindex⟩ := hs.index_mem hf (by rw [hkind]; rfl)
    have hlaw : ∀ vs, FieldLaw (writeArray order (writeItem order c i) vs)
        (items order (readItem order c i)) (some vs) (arraySize (i.size σ) vs)
        (∀ v, some v ∈ vs → i.Survives S v) := fun vs => arrayLaw fun v _ => itemLaw hc i v
    exact (payload_or hlaw value name _).imp_left fun ⟨_, h⟩ => ⟨_, .items hindex h⟩

end Fields

section Records

variable {R : Type} {order : ByteOrder} {c : Codec R} {σ : R → ℕ} {S : R → Prop} {r : Record R}

def Record.dataLength (σ : R → ℕ) (r : Record R) : ℕ :=
  r.type.schema.fixedSizeFieldsLength + (r.entries.map (size σ)).sum

def Record.size (σ : R → ℕ) (r : Record R) : ℕ :=
  if r.type.schema.numberOfVarSizeFields = 0 then r.type.schema.fixedSizeFieldsLength
  else 4 + r.dataLength σ + r.type.schema.numberOfVarSizeFields * offsetWidth (r.dataLength σ)

/-- A record comes back when its booleans have bits and all its values come back. -/
def Record.Survives (S : R → Prop) (r : Record R) : Prop :=
  r.type.fields.countIn .boolean ≤ 129 ∧ ∀ e ∈ r.entries, e.Survives S

/-- The record, written in the order of `es`, fills the body. -/
structure Record.Fills (order : ByteOrder) (c : Codec R) (σ : R → ℕ) (S : R → Prop) (r : Record R)
    (es : List (Entry R)) (b : Body) : Prop where
  appends : Appends (writeRecord order c r.type.schema es) (b.bytes order)
  fits : r.type.schema.numberOfVarSizeFields ≠ 0 → ∀ out data,
    writeRecord order c r.type.schema es out = .ok data → b.length ≤ intMax
  length : b.length = r.dataLength σ
  fixed : r.type.schema.fixedSizeFieldsLength = b.fixed.length
  count : r.type.schema.numberOfVarSizeFields = b.offsets.length
  holds : ∀ e ∈ r.entries, ∃ piece, e.PutsIn order c σ S r.type.schema piece ∧ b.Holds piece

theorem entries_keys (fs : List (Name × FieldDescriptor)) (values : Values R fs) :
    (Values.entries fs values).map (fun e => (e.name, e.kind)) = fs.map key := by
  induction fs with
  | nil => rfl
  | cons f fs ih => exact congrArg ((f.1, f.2.kind) :: ·) (ih values.2)

theorem schema_names_nodup (type : BuiltSchema) : (type.schema.fields.map Prod.fst).Nodup := by
  obtain ⟨-, -, -, -, hkinds⟩ := ofFields_length type.built
  have hnames : type.schema.fields.map Prod.fst = type.fields.toList.map Prod.fst := by
    rw [← hkinds, map_map]
    rfl
  rw [hnames]
  exact type.fields.nodup

theorem entry_field {e : Entry R} (he : e ∈ r.entries) :
    ∃ d, (e.name, d) ∈ r.type.schema.fields ∧ d.kind = e.kind ∧
      r.type.schema.getField e.name = some d := by
  have hmem : (e.name, e.kind) ∈ r.type.schema.fields.map key := by
    rw [← entries_keys r.type.schema.fields r.values]
    exact mem_map_of_mem he
  obtain ⟨f, hf, hkey⟩ := mem_map.mp hmem
  have hname : f.1 = e.name := congrArg Prod.fst hkey
  have hkind : f.2.kind = e.kind := congrArg Prod.snd hkey
  refine ⟨f.2, hname ▸ hf, hkind, ?_⟩
  rw [Schema.getField, ← hname]
  exact lookup_of_mem (schema_names_nodup r.type) hf

theorem field_entry (r : Record R) {f : Name × FieldDescriptor} (hf : f ∈ r.type.schema.fields) :
    ∃ e ∈ r.entries, e.name = f.1 ∧ e.kind = f.2.kind := by
  have hmem : key f ∈ r.entries.map fun e => (e.name, e.kind) := by
    rw [Record.entries, entries_keys]
    exact mem_map_of_mem hf
  obtain ⟨e, he, hkey⟩ := mem_map.mp hmem
  exact ⟨e, he, congrArg Prod.fst hkey, congrArg Prod.snd hkey⟩

theorem entries_names_nodup (r : Record R) : (r.entries.map name).Nodup := by
  have hnames : r.entries.map name = r.type.schema.fields.map Prod.fst := by
    have hkeys := congrArg (List.map Prod.fst) (entries_keys r.type.schema.fields r.values)
    rw [map_map, map_map] at hkeys
    exact hkeys
  rw [hnames]
  exact schema_names_nodup r.type

/-- A record with more booleans than the schema has bits for cannot be written. -/
theorem unwritable_of_booleans (order : ByteOrder) (c : Codec R)
    (h : 129 < r.type.fields.countIn .boolean) :
    ∃ e ∈ r.entries, e.Unwritable order c r.type.schema := by
  obtain ⟨f, hf, hnegative⟩ := exists_negative_bit r.type.built h
  obtain ⟨hmem, harea⟩ := mem_filter.mp hf
  obtain ⟨e, he, hname, hkind⟩ := field_entry r hmem
  refine ⟨e, he, ?_⟩
  have hget : r.type.schema.getField e.name = some f.2 := by
    rw [hname]
    exact lookup_of_mem (schema_names_nodup r.type) hmem
  have hboolean : e.kind = .primitive .boolean :=
    hkind.trans ((area_boolean_iff _).mp (of_decide_eq_true harea))
  obtain ⟨name, kind, value⟩ := e
  subst hboolean
  exact unwritable_of_negative_bit hget hnegative

theorem fills_of_puts (hs : Sound r.type.fields r.type.schema) {es : List (Entry R)}
    (hperm : es.Perm r.entries) {piece : Entry R → Piece}
    (hputs : ∀ e ∈ es, e.PutsIn order c σ S r.type.schema (piece e)) :
    r.Fills order c σ S es ((emptyBody r.type.schema).fill (es.map piece)) := by
  have hplaces : ∀ e ∈ es, ∃ d, (e.name, d) ∈ r.type.schema.fields ∧ d.Places (piece e) := by
    intro e he
    obtain ⟨d, hf, -, hget⟩ := entry_field (hperm.mem_iff.mp he)
    obtain ⟨d', hget', hkind, h⟩ := hputs e he
    obtain rfl : d = d' := Option.some.inj (hget.symm.trans hget')
    exact ⟨d, hf, h.places hkind⟩
  have hwithin : ∀ p ∈ es.map piece, p.Within r.type.schema.fixedSizeFieldsLength
      r.type.schema.numberOfVarSizeFields := by
    intro p hp
    obtain ⟨e, he, rfl⟩ := mem_map.mp hp
    obtain ⟨d, hf, h⟩ := hplaces e he
    exact hs.places_within hf h
  have hapart : (es.map piece).Pairwise Piece.Apart := by
    have hnames : (es.map name).Nodup :=
      (hperm.map name).nodup_iff.mpr (entries_names_nodup r)
    refine pairwise_map.mpr ((pairwise_map.mp hnames).imp_of_mem ?_)
    intro e e' he he' hne
    obtain ⟨d, hf, h⟩ := hplaces e he
    obtain ⟨d', hf', h'⟩ := hplaces e' he'
    exact hs.places_apart hf hf' (fun heq => hne (congrArg Prod.fst heq)) h h'
  have hfixed : (emptyBody r.type.schema).fixed.length = r.type.schema.fixedSizeFieldsLength :=
    length_replicate
  have hcount : (emptyBody r.type.schema).offsets.length = r.type.schema.numberOfVarSizeFields :=
    length_replicate
  have hin : ∀ p ∈ es.map piece, p.Within (emptyBody r.type.schema).fixed.length
      (emptyBody r.type.schema).offsets.length := by
    rwa [hfixed, hcount]
  obtain ⟨hf, hd, ho⟩ := Body.fill_cases hin
  have hsum : ((es.map piece).flatMap Piece.appended).length = (es.map (size σ)).sum := by
    rw [length_flatMap, map_map]
    refine congrArg List.sum (map_congr_left fun e he => ?_)
    obtain ⟨d, -, -, h⟩ := hputs e he
    exact h.length
  have hall : List.Forall₂ (fun e p => e.PutsIn order c σ S r.type.schema p) es (es.map piece) :=
    List.forall₂_map_right_iff.mpr (List.forall₂_same.mpr hputs)
  constructor
  case appends => exact appends_writeRecord hall hwithin
  case fits => exact fun hvariable out data => length_le_of_writeRecord hall hwithin hvariable
  case length =>
    rw [Body.length, hf, hd, hfixed, Record.dataLength, ← (hperm.map (size σ)).sum_eq, ← hsum]
    rfl
  case fixed => rw [hf, hfixed]
  case count => rw [ho, hcount]
  case holds =>
    intro e he
    have hmem := hperm.mem_iff.mpr he
    exact ⟨piece e, hputs e hmem, Body.fill_holds hin hapart _ (mem_map_of_mem hmem)⟩

theorem fills_or (order : ByteOrder) (hc : ∀ r, ItemLaw (c.write r) c.read r (σ r) (S r))
    (r : Record R) {es : List (Entry R)} (hperm : es.Perm r.entries) :
    (∃ b, r.Fills order c σ S es b) ∧ r.type.fields.countIn .boolean ≤ 129 ∨
      (∀ out, ∃ err, writeRecord order c r.type.schema es out = .error err) ∧ ¬ r.Survives S := by
  by_cases hbooleans : r.type.fields.countIn .boolean ≤ 129
  · have hs := sound_of_ofFields r.type.built hbooleans
    by_cases hall : ∀ e ∈ es, ∃ piece, e.PutsIn order c σ S r.type.schema piece
    · choose! piece hputs using hall
      exact .inl ⟨⟨_, fills_of_puts hs hperm hputs⟩, hbooleans⟩
    · push Not at hall
      obtain ⟨e, he, hno⟩ := hall
      have hmem := hperm.mem_iff.mp he
      obtain ⟨d, hf, hkind, hget⟩ := entry_field hmem
      rcases puts_or order hs hc hf hkind with ⟨piece, h⟩ | ⟨hfail, hlost⟩
      · exact absurd ⟨d, hget, hkind, h⟩ (hno piece)
      · exact .inr ⟨writeRecord_error he hfail, fun hsurvives => hlost (hsurvives.2 e hmem)⟩
  · right
    obtain ⟨e, he, hfail⟩ := unwritable_of_booleans order c (Nat.not_le.mp hbooleans)
    exact ⟨writeRecord_error (hperm.mem_iff.mpr he) hfail, fun hsurvives => hbooleans hsurvives.1⟩

theorem readValues_iff (reader : Reader) (fs : List (Name × FieldDescriptor)) (values : Values R fs) :
    readValues order c reader fs = .ok values ↔
      ∀ e ∈ Values.entries fs values, reader.readField order c e.name e.kind = .ok e.value := by
  induction fs with
  | nil => exact iff_of_true rfl fun e he => by cases he
  | cons f fs ih =>
    obtain ⟨value, values⟩ := values
    rw [entries_cons, forall_mem_cons, ← ih values, readValues]
    constructor
    · intro h
      obtain ⟨v, hv, hrest⟩ := Except.bind_eq_ok h
      obtain ⟨vs, hvs, hlast⟩ := Except.bind_eq_ok hrest
      cases hlast
      exact ⟨hv, hvs⟩
    · rintro ⟨hv, hvs⟩
      dsimp only at hv
      rw [hv, ok_bind, hvs, ok_bind]

section Reading

variable {r : Record R} {es : List (Entry R)} {b : Body} {data : List UInt8} {pos : ℕ}
  (h : r.Fills order c σ S es b)

include h

theorem Record.Fills.bytes_length : (b.bytes order).length = r.size σ := by
  have hnil : b.offsets = [] ↔ r.type.schema.numberOfVarSizeFields = 0 := by
    rw [h.count, length_eq_zero_iff]
  rw [Body.bytes_length, Record.size, ← h.length, ← h.fixed, ← h.count]
  simp only [hnil]

/-- A reader of the body gets the values of the record when they all come back. -/
theorem Record.Fills.readValues_iff {reader : Reader} (hr : reader.Views order r.type.schema b) :
    readValues order c reader r.type.schema.fields = .ok r.values ↔
      ∀ e ∈ r.entries, e.Survives S := by
  rw [Compact.readValues_iff]
  refine forall₂_congr fun e he => ?_
  obtain ⟨piece, ⟨d, hget, hkind, hputs⟩, hholds⟩ := h.holds e he
  exact readField_iff hr hget hkind hputs hholds

/-- Where the bytes of the body stand, the record is read if its values come back, and it is
not read otherwise. -/
theorem Record.Fills.readRecord_iff (hat : At data pos (b.bytes order))
    (hlimit : pos + (b.bytes order).length ≤ intMax) (next : ℕ) :
    readRecord order c r.type data pos = .ok (r, next) ↔
      (∀ e ∈ r.entries, e.Survives S) ∧ next = pos + (b.bytes order).length := by
  obtain ⟨reader, hnew, hr, hposition⟩ := new_views hat hlimit h.fixed h.count
  rw [readRecord, hnew, ok_bind, ← h.readValues_iff hr, ← hposition]
  constructor
  · intro hok
    obtain ⟨values, hvalues, hlast⟩ := Except.bind_eq_ok hok
    have hpair := Except.ok.inj hlast
    have hrecord : values = r.values := by
      have heq : (⟨r.type, values⟩ : Record R) = r := congrArg Prod.fst hpair
      cases r
      exact eq_of_heq (Record.mk.inj heq).2
    exact ⟨hrecord ▸ hvalues, (congrArg Prod.snd hpair).symm⟩
  · rintro ⟨hvalues, rfl⟩
    rw [hvalues, ok_bind]

theorem Record.Fills.readRecord_error (hat : At data pos (b.bytes order))
    (hle : r.type.schema.numberOfVarSizeFields ≠ 0 → b.length ≤ intMax)
    (hlarge : intMax < pos + (b.bytes order).length) :
    ∃ e, readRecord order c r.type data pos = .error e := by
  obtain ⟨e, herr⟩ := new_error hat hle hlarge h.fixed h.count
  exact ⟨e, by rw [readRecord, herr, error_bind]⟩

end Reading

/-- What happens to a record on a stream. -/
theorem recordLaw (order : ByteOrder) (hc : ∀ r, ItemLaw (c.write r) c.read r (σ r) (S r))
    (r : Record R) {es : List (Entry R)} (hperm : es.Perm r.entries) :
    ItemLaw (writeRecord order c r.type.schema es) (readRecord order c r.type) r (r.size σ)
      (r.Survives S) := by
  rcases fills_or order hc r hperm with ⟨⟨b, h⟩, hbooleans⟩ | ⟨hwrite, hlost⟩
  · refine .written (b.bytes order) h.bytes_length h.appends (fun hs data pos hat hlimit => ?_)
      fun hs data pos next hat hlimit hok => ?_
    · exact (h.readRecord_iff hat hlimit _).mpr ⟨hs.2, rfl⟩
    · exact hs ⟨hbooleans, ((h.readRecord_iff hat hlimit next).mp hok).1⟩
  · exact .unwritable hwrite hlost

end Records

end HazelcastClient.Serialization.Compact
