import HazelcastClient.Serialization.Compact.Schema

/-!
# Layout of compact schemas

The loops of the constructor of a schema place fields one after another, and are
undefined when an `int` overflows. `Sound` says what a record needs of a schema: fields
of a fixed size do not overlap, booleans have a bit of their own, and the other fields
are numbered. A schema is sound as long as it has at most 129 booleans.
-/

namespace HazelcastClient.Serialization.Compact

open Layout List Option Int8 List.Perm FieldMap

open Schema (ofFields)

section Areas

theorem area_boolean_iff (kind : FieldKind) : kind.area = .boolean ↔ kind = .primitive .boolean := by
  unfold FieldKind.area
  split
  · refine iff_of_false (by simp) ?_
    rintro rfl
    contradiction
  · split <;> simp [*]

theorem area_fixedSize_iff (kind : FieldKind) :
    kind.area = .fixedSize ↔ ∃ n, kind = .primitive (.numeric n) := by
  constructor
  · intro h
    match kind, h with
    | .primitive (.numeric n), _ => exact ⟨n, rfl⟩
  · rintro ⟨n, rfl⟩
    cases n <;> rfl

def fieldSize (f : Name × FieldDescriptor) : ℕ := f.2.kind.kindSizeInByte.toNat

variable {f : Name × FieldDescriptor}

theorem kindSizeInByte_eq_fieldSize (h : f.2.kind.area = .fixedSize) :
    f.2.kind.kindSizeInByte = fieldSize f := by
  obtain ⟨n, hn⟩ := (area_fixedSize_iff _).mp h
  simp [fieldSize, hn, FieldKind.kindSizeInByte]

theorem fieldSize_eq_zero (h : f.2.kind.area ≠ .fixedSize) :
    fieldSize f = 0 := by
  unfold fieldSize
  match hkind : f.2.kind with
  | .notAvailable => rfl
  | .primitive .boolean => rfl
  | .primitive (.numeric n) => exact absurd ((area_fixedSize_iff _).mpr ⟨n, hkind⟩) h
  | .arrayOf p => rfl
  | .nullable i => rfl
  | .arrayOfNullable i => rfl

end Areas

section Loops

theorem addInt_natCast (a b : ℕ) :
    addInt a b = if a + b ≤ intMax then some ((a + b : ℕ) : ℤ) else none := by
  unfold addInt
  split <;> split
  · simp
  · omega
  · omega
  · rfl

theorem placeEach_eq (size : FieldDescriptor → ℤ) (store : FieldDescriptor → ℤ → FieldDescriptor)
    (width : Name × FieldDescriptor → ℕ) {start : ℕ} {l : List (Name × FieldDescriptor)}
    (hsize : ∀ f ∈ l, size f.2 = width f) (hstart : start ≤ intMax) :
    placeEach size store start l =
      if start + total width l ≤ intMax then
        some ((place width start l).map fun p => (p.1.1, store p.1.2 p.2),
          ((start + total width l : ℕ) : ℤ))
      else none := by
  induction l generalizing start with
  | nil => simp [placeEach, hstart]
  | cons f l ih =>
    rw [placeEach, hsize f mem_cons_self, addInt_natCast, total_cons, ← Nat.add_assoc]
    by_cases hfits : start + width f ≤ intMax
    · rw [if_pos hfits, bind_some, ih (fun g hg => hsize g (mem_cons_of_mem _ hg)) hfits]
      split <;> rfl
    · rw [if_neg hfits, if_neg (by omega)]
      rfl

theorem int8_step (k : ℕ) : ofNat k + 1 = ofNat (k + 1) := (ofNat_add k 1).symm

theorem int8_mod_eq_zero_iff (k : ℕ) : ofNat k % 8 = 0 ↔ k % 8 = 0 := by
  have hsmall : ∀ j < 256, ofNat j % 8 = 0 ↔ j % 8 = 0 := by decide +kernel
  have hwrap : ofNat k = ofNat (k % 256) := by
    apply toBitVec_inj.mp
    apply BitVec.eq_of_toNat_eq
    simp
  rw [hwrap, hsmall _ (Nat.mod_lt _ (by decide))]
  omega

/-- The boolean with the number `k` gets a bit of the byte with the number `k / 8`. -/
def setBit (base : ℕ) (p : (Name × FieldDescriptor) × ℕ) : Name × FieldDescriptor :=
  (p.1.1, { p.1.2 with offset := (base + p.2 / 8 : ℕ), bitOffset := ofNat p.2 % 8 })

theorem placeBooleans_eq (base k : ℕ) (l : List (Name × FieldDescriptor))
    (hstart : base + k / 8 ≤ intMax) :
    placeBooleans ((base + k / 8 : ℕ) : ℤ) (ofNat k) l =
      if base + (k + l.length) / 8 ≤ intMax then
        some ((place (fun _ => 1) k l).map (setBit base),
          ((base + (k + l.length) / 8 : ℕ) : ℤ), ofNat (k + l.length))
      else none := by
  induction l generalizing k with
  | nil => simp [placeBooleans, hstart]
  | cons f l ih =>
    have hnext : (if (ofNat k + 1) % 8 = 0 then addInt ((base + k / 8 : ℕ) : ℤ) 1
        else some ((base + k / 8 : ℕ) : ℤ)) =
        if base + (k + 1) / 8 ≤ intMax then some ((base + (k + 1) / 8 : ℕ) : ℤ) else none := by
      rw [int8_step, show (1 : ℤ) = ((1 : ℕ) : ℤ) from rfl, addInt_natCast]
      by_cases hcarry : (k + 1) % 8 = 0
      · rw [if_pos ((int8_mod_eq_zero_iff _).mpr hcarry),
          show base + k / 8 + 1 = base + (k + 1) / 8 by omega]
      · have hsame : base + (k + 1) / 8 = base + k / 8 := by omega
        rw [if_neg (mt (int8_mod_eq_zero_iff _).mp hcarry), hsame, if_pos hstart]
    have hlen : k + (f :: l).length = k + 1 + l.length := by
      rw [length_cons]
      omega
    rw [placeBooleans, hnext, hlen]
    by_cases hfits : base + (k + 1) / 8 ≤ intMax
    · rw [if_pos hfits, bind_some, int8_step, ih _ hfits]
      split <;> rfl
    · rw [if_neg hfits, if_neg (by omega)]
      rfl

end Loops

/-- What a schema has to say about its fields. -/
structure Sound (fields : FieldMap) (schema : Schema) : Prop where
  kinds : schema.fields.map (fun f => (f.1, f.2.kind)) = fields.toList
  inside : ∀ f ∈ schema.fieldsIn .fixedSize, 0 ≤ f.2.offset ∧
    f.2.offset + f.2.kind.kindSizeInByte ≤ schema.fixedSizeFieldsLength
  disjoint : (schema.fieldsIn .fixedSize).Pairwise fun f g =>
    f.2.offset + f.2.kind.kindSizeInByte ≤ g.2.offset ∨
      g.2.offset + g.2.kind.kindSizeInByte ≤ f.2.offset
  bits : ∀ f ∈ schema.fieldsIn .boolean, 0 ≤ f.2.bitOffset ∧ f.2.bitOffset ≤ 7 ∧
    0 ≤ f.2.offset ∧ f.2.offset < schema.fixedSizeFieldsLength
  apart : ∀ f ∈ schema.fieldsIn .boolean, ∀ g ∈ schema.fieldsIn .fixedSize,
    f.2.offset < g.2.offset ∨ g.2.offset + g.2.kind.kindSizeInByte ≤ f.2.offset
  distinct : (schema.fieldsIn .boolean).Pairwise fun f g =>
    (f.2.offset, f.2.bitOffset) ≠ (g.2.offset, g.2.bitOffset)
  indices : ((schema.fieldsIn .variableSize).map fun f => f.2.index).Perm
    ((List.range schema.numberOfVarSizeFields).map Nat.cast)

section Placed

variable (fields : FieldMap) {area : Area} {f : Name × FieldDescriptor}
  {l : List (Name × FieldDescriptor)}

def FieldMap.countIn (area : Area) : ℕ := fields.toList.countP fun f => f.2.area = area

def FieldMap.fixedBytes : ℕ := total (fun f => f.2.kindSizeInByte.toNat) fields.toList

def FieldMap.fixedLength : ℕ := fields.fixedBytes + (fields.countIn .boolean + 7) / 8

def placedFixed : List (Name × FieldDescriptor) :=
  (place fieldSize 0 (fixedSizeFields fields)).map fun p =>
    (p.1.1, { p.1.2 with offset := p.2 })

def placedBooleans : List (Name × FieldDescriptor) :=
  (place (fun _ => 1) 0 (sortedFieldsIn fields .boolean)).map (setBit fields.fixedBytes)

def placedVariable : List (Name × FieldDescriptor) :=
  (place (fun _ => 1) 0 (sortedFieldsIn fields .variableSize)).map fun p =>
    (p.1.1, { p.1.2 with index := p.2 })

def placed : List (Name × FieldDescriptor) :=
  placedFixed fields ++ placedBooleans fields ++ placedVariable fields

theorem mem_sortedFieldsIn (h : f ∈ sortedFieldsIn fields area) : f.2.kind.area = area := by
  simpa using (mem_filter.mp h).2

theorem mem_fixedSizeFields (h : f ∈ fixedSizeFields fields) :
    f.2.kind.area = .fixedSize :=
  mem_sortedFieldsIn fields ((perm_insertionSort _ _).mem_iff.mp h)

def key (f : Name × FieldDescriptor) : Name × FieldKind := (f.1, f.2.kind)

theorem sortedFields_key : ((sortedFields fields).map key).Perm fields.toList := by
  refine ((List.perm_insertionSort _ _).map key).trans ?_
  rw [List.map_map]
  exact of_eq (map_id' _)

theorem length_sortedFieldsIn (area : Area) :
    (sortedFieldsIn fields area).length = fields.countIn area := by
  rw [countIn, ← (sortedFields_key fields).countP_eq, countP_map,
    countP_eq_length_filter]
  rfl

theorem total_fixedSizeFields : total fieldSize (fixedSizeFields fields) = fields.fixedBytes := by
  have hrest : ∀ l : List (Name × FieldDescriptor),
      total fieldSize (l.filter fun f => f.2.kind.area = .fixedSize) = total fieldSize l := by
    intro l
    induction l with
    | nil => rfl
    | cons f l ih =>
      by_cases hf : f.2.kind.area = .fixedSize
      · rw [filter_cons_of_pos (by simpa using hf), total_cons, total_cons, ih]
      · rw [filter_cons_of_neg (by simpa using hf), total_cons, ih,
          fieldSize_eq_zero hf, Nat.zero_add]
  rw [fixedSizeFields, total_perm _ (perm_insertionSort _ _), sortedFieldsIn, hrest,
    fixedBytes, ← total_perm _ (sortedFields_key fields), total, total, List.map_map]
  rfl

theorem placeFixed_eq :
    placeFixed 0 (fixedSizeFields fields) =
      if fields.fixedBytes ≤ intMax then some (placedFixed fields, (fields.fixedBytes : ℤ))
      else none := by
  have h := placeEach_eq (fun d => d.kind.kindSizeInByte)
    (fun d offset => { d with offset := offset }) fieldSize
    (fun f hf => kindSizeInByte_eq_fieldSize (mem_fixedSizeFields fields hf)) (Nat.zero_le intMax)
  rw [Nat.zero_add, total_fixedSizeFields] at h
  exact h

theorem placeVariable_eq :
    placeVariable 0 (sortedFieldsIn fields .variableSize) =
      if fields.countIn .variableSize ≤ intMax then
        some (placedVariable fields, (fields.countIn .variableSize : ℤ))
      else none := by
  have h := placeEach_eq (fun _ => 1) (fun d index => { d with index := index }) (fun _ => 1)
    (l := sortedFieldsIn fields .variableSize) (fun f hf => rfl) (Nat.zero_le intMax)
  rw [Nat.zero_add, total_one, length_sortedFieldsIn] at h
  exact h

theorem placeBooleans_zero_eq (h : fields.fixedBytes ≤ intMax) :
    placeBooleans (fields.fixedBytes) 0 (sortedFieldsIn fields .boolean) =
      if fields.fixedBytes + fields.countIn .boolean / 8 ≤ intMax then
        some (placedBooleans fields,
          ((fields.fixedBytes + fields.countIn .boolean / 8 : ℕ) : ℤ),
          ofNat (fields.countIn .boolean))
      else none := by
  have hzero := placeBooleans_eq (fields.fixedBytes) 0
    (sortedFieldsIn fields .boolean) h
  rw [Nat.zero_add, length_sortedFieldsIn] at hzero
  exact hzero

theorem lastByte_eq (base b : ℕ) (h : base + b / 8 ≤ intMax) :
    (if ofNat b % 8 ≠ 0 then addInt ((base + b / 8 : ℕ) : ℤ) 1
      else some ((base + b / 8 : ℕ) : ℤ)) =
      if base + (b + 7) / 8 ≤ intMax then some ((base + (b + 7) / 8 : ℕ) : ℤ) else none := by
  rw [show (1 : ℤ) = ((1 : ℕ) : ℤ) from rfl, addInt_natCast]
  by_cases hmod : b % 8 = 0
  · have hsame : base + (b + 7) / 8 = base + b / 8 := by omega
    rw [if_neg (not_not.mpr ((int8_mod_eq_zero_iff b).mpr hmod)), hsame, if_pos h]
  · rw [if_pos (mt (int8_mod_eq_zero_iff b).mp hmod),
      show base + b / 8 + 1 = base + (b + 7) / 8 by omega]

/-- The constructor in closed form. -/
theorem ofFields_eq (typeName : Name) :
    ofFields typeName fields =
      if fields.fixedLength ≤ intMax ∧
          fields.countIn .variableSize ≤ intMax then
        some
          { typeName := typeName
            fields := assign fields (placed fields)
            fixedSizeFieldsLength := fields.fixedLength
            numberOfVarSizeFields := fields.countIn .variableSize
            schemaId := fingerprint typeName (sortedFields fields) }
      else none := by
  rw [ofFields, placeFixed_eq, fixedLength]
  set b := fields.countIn .boolean with hb
  by_cases hfixed : fields.fixedBytes ≤ intMax
  · rw [if_pos hfixed, bind_some]
    dsimp only
    rw [placeBooleans_zero_eq fields hfixed, ← hb]
    by_cases hbits : fields.fixedBytes + b / 8 ≤ intMax
    · rw [if_pos hbits, bind_some]
      dsimp only
      rw [lastByte_eq _ _ hbits]
      by_cases hlast : fields.fixedBytes + (b + 7) / 8 ≤ intMax
      · rw [if_pos hlast, bind_some, placeVariable_eq]
        by_cases hcount : fields.countIn .variableSize ≤ intMax
        · rw [if_pos hcount, if_pos ⟨hlast, hcount⟩]
          rfl
        · rw [if_neg hcount, if_neg fun h => hcount h.2]
          rfl
      · rw [if_neg hlast, if_neg fun h => hlast h.1]
        rfl
    · rw [if_neg hbits, if_neg (by omega)]
      rfl
  · rw [if_neg hfixed, if_neg (by omega)]
    rfl

theorem areas_perm (l : List (Name × FieldDescriptor)) :
    (l.filter (fun f => f.2.kind.area = .fixedSize) ++
      l.filter (fun f => f.2.kind.area = .boolean) ++
      l.filter fun f => f.2.kind.area = .variableSize).Perm l := by
  induction l with
  | nil => exact nil
  | cons f l ih =>
    cases hf : f.2.kind.area with
    | fixedSize => simpa [filter_cons, hf] using ih
    | boolean =>
      simp only [filter_cons, hf]
      simpa using perm_middle.trans (by simpa using ih.cons f)
    | variableSize =>
      simp only [filter_cons, hf]
      simpa using perm_middle.trans (ih.cons f)

theorem place_key (width : Name × FieldDescriptor → ℕ) (start : ℕ)
    (l : List (Name × FieldDescriptor))
    (store : (Name × FieldDescriptor) × ℕ → Name × FieldDescriptor)
    (hstore : ∀ p, key (store p) = key p.1) :
    ((place width start l).map store).map key = l.map key := by
  have hfst : ((place width start l).map Prod.fst).map key = l.map key := by rw [place_map_fst]
  rw [← hfst, List.map_map, List.map_map]
  exact List.map_congr_left fun p _ => hstore p

theorem placed_key : ((placed fields).map key).Perm fields.toList := by
  have hfixed : (placedFixed fields).map key = (fixedSizeFields fields).map key :=
    place_key _ _ _ _ fun _ => rfl
  have hboolean : (placedBooleans fields).map key = (sortedFieldsIn fields .boolean).map key :=
    place_key _ _ _ _ fun _ => rfl
  have hvariable : (placedVariable fields).map key =
      (sortedFieldsIn fields .variableSize).map key := place_key _ _ _ _ fun _ => rfl
  rw [placed, map_append, map_append, hfixed, hboolean, hvariable, ← map_append,
    ← map_append]
  refine List.Perm.trans (List.Perm.map key ?_) (sortedFields_key fields)
  refine List.Perm.trans ?_ (areas_perm (sortedFields fields))
  exact append_right _ ((perm_insertionSort _ _).append_right _)

theorem lookup_of_mem (hnodup : (l.map Prod.fst).Nodup) (hf : f ∈ l) : l.lookup f.1 = some f.2 := by
  induction l with
  | nil => cases hf
  | cons g l ih =>
    obtain ⟨hfresh, hnodup⟩ := nodup_cons.mp hnodup
    rcases mem_cons.mp hf with rfl | hmem
    · rw [lookup_cons_self]
    · have hne : (f.1 == g.1) = false := by
        rw [beq_eq_false_iff_ne]
        intro heq
        exact hfresh (heq ▸ mem_map_of_mem hmem)
      rw [lookup_cons, hne]
      exact ih hnodup hmem

theorem placed_nodup : ((placed fields).map Prod.fst).Nodup := by
  have hnames : (placed fields).map Prod.fst = ((placed fields).map key).map Prod.fst := by
    rw [List.map_map]
    rfl
  rw [hnames]
  exact ((placed_key fields).map Prod.fst).nodup_iff.mpr fields.nodup

/-- What the map has for a name and a kind after the positions are written back. -/
theorem assign_key (hf : f ∈ placed fields) :
    ((key f).1, ((placed fields).lookup (key f).1).getD { kind := (key f).2 }) = f := by
  rw [show (key f).1 = f.1 from rfl, lookup_of_mem (placed_nodup fields) hf]
  rfl

theorem assign_perm : (assign fields (placed fields)).Perm (placed fields) := by
  refine List.Perm.trans ((placed_key fields).symm.map _) ?_
  rw [List.map_map]
  refine of_eq ?_
  exact (List.map_congr_left fun f hf => assign_key fields hf).trans (List.map_id' _)

theorem assign_kinds :
    (assign fields (placed fields)).map (fun f => (f.1, f.2.kind)) = fields.toList := by
  rw [assign, List.map_map]
  refine (List.map_congr_left fun k hk => ?_).trans (List.map_id' _)
  obtain ⟨f, hf, rfl⟩ := mem_map.mp ((placed_key fields).mem_iff.mpr hk)
  exact congrArg key (assign_key fields hf)

theorem area_of_mem_place {width : Name × FieldDescriptor → ℕ} {start : ℕ}
    (store : (Name × FieldDescriptor) × ℕ → Name × FieldDescriptor)
    (hstore : ∀ p, key (store p) = key p.1) (hl : ∀ f ∈ l, f.2.kind.area = area) :
    ∀ f ∈ (place width start l).map store, f.2.kind.area = area := by
  intro f hf
  obtain ⟨p, hp, rfl⟩ := mem_map.mp hf
  have hkind : (store p).2.kind = p.1.2.kind := congrArg Prod.snd (hstore p)
  rw [hkind]
  exact hl _ (fst_mem_of_mem_place _ hp)

def placedIn : Area → List (Name × FieldDescriptor)
  | .fixedSize => placedFixed fields
  | .boolean => placedBooleans fields
  | .variableSize => placedVariable fields

theorem filter_of_area (area' : Area) (h : ∀ f ∈ l, f.2.kind.area = area) :
    l.filter (fun f => f.2.kind.area = area') = if area = area' then l else [] := by
  split
  · rename_i heq
    exact filter_eq_self.mpr fun f hf => decide_eq_true ((h f hf).trans heq)
  · rename_i hne
    refine filter_eq_nil_iff.mpr fun f hf => ?_
    rw [h f hf, decide_eq_true_eq]
    exact hne

theorem placed_filter (area : Area) :
    (placed fields).filter (fun f => f.2.kind.area = area) = placedIn fields area := by
  have hfixed : ∀ f ∈ placedFixed fields, f.2.kind.area = .fixedSize :=
    area_of_mem_place _ (fun _ => rfl) fun _ => mem_fixedSizeFields fields
  have hboolean : ∀ f ∈ placedBooleans fields, f.2.kind.area = .boolean :=
    area_of_mem_place _ (fun _ => rfl) fun _ => mem_sortedFieldsIn fields
  have hvariable : ∀ f ∈ placedVariable fields, f.2.kind.area = .variableSize :=
    area_of_mem_place _ (fun _ => rfl) fun _ => mem_sortedFieldsIn fields
  rw [placed, filter_append, filter_append, filter_of_area area hfixed,
    filter_of_area area hboolean, filter_of_area area hvariable]
  cases area <;> simp [placedIn]

end Placed

section Soundness

variable {typeName : Name} {fields : FieldMap} {schema : Schema}

theorem fieldsIn_perm (h : ofFields typeName fields = some schema) (area : Area) :
    (schema.fieldsIn area).Perm (placedIn fields area) := by
  rw [ofFields_eq] at h
  split at h
  · obtain rfl := Option.some.inj h
    rw [← placed_filter]
    exact (assign_perm fields).filter _
  · cases h

theorem ofFields_length (h : ofFields typeName fields = some schema) :
    schema.fixedSizeFieldsLength = fields.fixedLength ∧
      schema.numberOfVarSizeFields = fields.countIn .variableSize ∧
      fields.fixedLength ≤ intMax ∧ fields.countIn .variableSize ≤ intMax ∧
      schema.fields.map (fun f => (f.1, f.2.kind)) = fields.toList := by
  rw [ofFields_eq] at h
  split at h
  · rename_i hfits
    obtain rfl := Option.some.inj h
    exact ⟨rfl, rfl, hfits.1, hfits.2, assign_kinds fields⟩
  · cases h

/-- The first 129 booleans get a bit of their byte. -/
theorem int8_mod_eight (k : ℕ) (h : k < 129) : (ofNat k % 8).toInt = ((k % 8 : ℕ) : ℤ) := by
  have hall : ∀ j < 129, (ofNat j % 8).toInt = ((j % 8 : ℕ) : ℤ) := by decide +kernel
  exact hall k h

theorem mem_placedFixed_bounds {f : Name × FieldDescriptor} (h : f ∈ placedFixed fields) :
    0 ≤ f.2.offset ∧ f.2.offset + f.2.kind.kindSizeInByte ≤ fields.fixedBytes := by
  obtain ⟨p, hp, rfl⟩ := mem_map.mp h
  have hbounds := (bounds_of_mem_place fieldSize hp).2
  have hsize := kindSizeInByte_eq_fieldSize (mem_fixedSizeFields fields (fst_mem_of_mem_place _ hp))
  rw [total_fixedSizeFields] at hbounds
  dsimp only
  omega

section

variable (h : ofFields typeName fields = some schema)

include h

theorem sound_of_ofFields (hbooleans : fields.countIn .boolean ≤ 129) : Sound fields schema := by
  obtain ⟨hlength, hnumber, -, -, hkinds⟩ := ofFields_length h
  have hfixed := fieldsIn_perm h .fixedSize
  have hboolean := fieldsIn_perm h .boolean
  have hvariable := fieldsIn_perm h .variableSize
  -- the number of a boolean
  have hnumbered : ∀ f ∈ placedBooleans fields, ∃ k < fields.countIn .boolean,
      f.2.offset = (fields.fixedBytes + k / 8 : ℕ) ∧ f.2.bitOffset = ofNat k % 8 := by
    intro f hf
    obtain ⟨p, hp, rfl⟩ := mem_map.mp hf
    have hbounds := (bounds_of_mem_place _ hp).2
    rw [total_one, length_sortedFieldsIn] at hbounds
    exact ⟨p.2, by omega, rfl, rfl⟩
  constructor
  case kinds => exact hkinds
  case inside =>
    intro f hf
    obtain ⟨hlow, hhigh⟩ := mem_placedFixed_bounds (hfixed.mem_iff.mp hf)
    rw [hlength, fixedLength]
    omega
  case disjoint =>
    refine (hfixed.pairwise_iff fun hfg => hfg.symm).mpr (pairwise_map.mpr ?_)
    refine (place_separate fieldSize 0 (fixedSizeFields fields)).imp_of_mem ?_
    intro p q hp hq hsep
    have hsize :=
      kindSizeInByte_eq_fieldSize (mem_fixedSizeFields fields (fst_mem_of_mem_place _ hp))
    left
    dsimp only
    omega
  case bits =>
    intro f hf
    obtain ⟨k, hk, hoffset, hbit⟩ := hnumbered f (hboolean.mem_iff.mp hf)
    have hmod := int8_mod_eight k (by omega)
    rw [hbit, hoffset, hlength, fixedLength, le_iff_toInt_le, le_iff_toInt_le,
      hmod]
    refine ⟨?_, ?_, ?_, ?_⟩
    · rw [show (0 : Int8).toInt = 0 from rfl]
      omega
    · rw [show (7 : Int8).toInt = 7 from rfl]
      omega
    · omega
    · omega
  case apart =>
    intro f hf g hg
    obtain ⟨k, hk, hoffset, -⟩ := hnumbered f (hboolean.mem_iff.mp hf)
    have hbounds := (mem_placedFixed_bounds (hfixed.mem_iff.mp hg)).2
    omega
  case distinct =>
    refine (hboolean.pairwise_iff fun hfg => hfg.symm).mpr (pairwise_map.mpr ?_)
    refine (place_separate _ 0 (sortedFieldsIn fields .boolean)).imp_of_mem ?_
    intro p q hp hq hsep heq
    have hpbound := (bounds_of_mem_place _ hp).2
    have hqbound := (bounds_of_mem_place _ hq).2
    rw [total_one, length_sortedFieldsIn] at hpbound hqbound
    have hbyte := congrArg Prod.fst heq
    have hbit := congrArg (fun b => toInt b.2) heq
    dsimp only [setBit] at hbyte hbit
    rw [int8_mod_eight p.2 (by omega), int8_mod_eight q.2 (by omega)] at hbit
    omega
  case indices =>
    refine (hvariable.map _).trans (of_eq ?_)
    have hrange := place_one_map_snd 0 (sortedFieldsIn fields .variableSize)
    rw [length_sortedFieldsIn, ← range_eq_range'] at hrange
    rw [hnumber, ← hrange, placedIn, placedVariable, List.map_map, List.map_map]
    rfl

/-- The boolean with the number 129 has a negative bit. -/
theorem exists_negative_bit (hbooleans : 129 < fields.countIn .boolean) :
    ∃ f ∈ schema.fieldsIn .boolean, f.2.bitOffset < 0 := by
  have hmem : 129 ∈ (place (fun _ => 1) 0 (sortedFieldsIn fields .boolean)).map Prod.snd := by
    rw [place_one_map_snd, length_sortedFieldsIn, mem_range'_1]
    omega
  obtain ⟨p, hp, hnumber⟩ := mem_map.mp hmem
  have hplaced : setBit fields.fixedBytes p ∈ schema.fieldsIn .boolean :=
    (fieldsIn_perm h .boolean).mem_iff.mpr (mem_map_of_mem hp)
  refine ⟨_, hplaced, ?_⟩
  change ofNat p.2 % 8 < 0
  rw [hnumber]
  decide

theorem not_sound_of_booleans (hbooleans : 129 < fields.countIn .boolean) :
    ¬ Sound fields schema := by
  intro hsound
  obtain ⟨f, hf, hnegative⟩ := exists_negative_bit h hbooleans
  have hbit := (hsound.bits f hf).1
  rw [le_iff_toInt_le] at hbit
  rw [lt_iff_toInt_lt] at hnegative
  omega

end

/-- A schema is sound when it has at most 129 booleans and its numbers fit into an
`int`. -/
theorem schema_sound_iff (typeName : Name) (fields : FieldMap) :
    (∃ schema, ofFields typeName fields = some schema ∧ Sound fields schema) ↔
      fields.countIn .boolean ≤ 129 ∧ fields.fixedLength ≤ intMax ∧
        fields.countIn .variableSize ≤ intMax := by
  constructor
  · rintro ⟨schema, h, hsound⟩
    obtain ⟨-, -, hlength, hcount, -⟩ := ofFields_length h
    refine ⟨?_, hlength, hcount⟩
    by_contra hmany
    exact not_sound_of_booleans h (by omega) hsound
  · rintro ⟨hbooleans, hfits⟩
    have h := ofFields_eq fields typeName
    rw [if_pos hfits] at h
    exact ⟨_, h, sound_of_ofFields h hbooleans⟩

def manyBooleans : FieldMap where
  toList := (List.range 130).map fun k => ([UInt8.ofNat k], .primitive .boolean)
  nodup := by
    rw [List.map_map]
    refine List.Nodup.map_on ?_ List.nodup_range
    intro a ha b hb hab
    have hbyte := congrArg UInt8.toNat (List.cons.inj hab).1
    rw [UInt8.toNat_ofNat', UInt8.toNat_ofNat'] at hbyte
    have ha' := mem_range.mp ha
    have hb' := mem_range.mp hb
    omega

/-- The last of 130 booleans is at the bit `-7` of the byte `16`. -/
theorem schema_130_booleans :
    (ofFields [] manyBooleans).bind (fun schema => schema.getField [129]) =
      some { kind := .primitive .boolean, offset := 16, bitOffset := -7 } := by
  decide +kernel

end Soundness

end HazelcastClient.Serialization.Compact
