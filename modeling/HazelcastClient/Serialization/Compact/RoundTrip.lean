import HazelcastClient.Serialization.Compact.RecordLaw

/-!
# Round trips of compact records

A record that is written and read under its schema comes back in all but these cases: it
has an array of numbers without items, which comes back as an absent one; it has a decimal
that loses its sign; its schema has more than 129 booleans; it does not fit into the
positions of an `int`; or one of its nested records does not come back.
-/

namespace HazelcastClient.Serialization.Compact

open ByteParser RandomAccess List Except

section Nesting

variable {order : ByteOrder} {R : Type} {c : Codec R} {σ : R → ℕ} {S : R → Prop}

theorem reads_readInt64 (v : Int64) :
    Reads intMax (readInt64 order) (order.bytes 8 v.toUInt64.toNat) v := by
  have hlt : v.toUInt64.toNat < 256 ^ 8 := v.toUInt64.toNat_lt
  refine (reads_readNat hlt).bind_pure (fun n => (UInt64.ofNat n).toInt64) ?_
  rw [UInt64.ofNat_toNat]
  rfl

/-- The id of the schema leads back to the record if the service knows the schema. -/
theorem recordCodecLaw (order : ByteOrder) (service : SchemaService)
    (hc : ∀ r, ItemLaw (c.write r) c.read r (σ r) (S r)) (r : Record R) :
    ItemLaw ((recordCodec order c service).write r) (recordCodec order c service).read r
      (8 + r.size σ) (service r.type.schema.schemaId = some r.type ∧ r.Survives S) := by
  set id := order.bytes 8 r.type.schema.schemaId.toUInt64.toNat with hid
  have hidread : Reads intMax (readInt64 order) id r.type.schema.schemaId := reads_readInt64 _
  have hidlen : id.length = 8 := order.bytes_length _ _
  cases recordLaw order hc r (List.Perm.refl r.entries) with
  | unwritable hwrite hlost => exact .unwritable (fun out => hwrite _) fun h => hlost h.2
  | written bytes hsize hwrite hread hlost =>
    refine .written (id ++ bytes) ?_ (fun out => ?_) (fun hs => ?_)
      fun hs data pos next hat hlimit hok => ?_
    · rw [length_append, hidlen, hsize]
    · rw [← append_assoc]
      rcases hwrite (out ++ id) with hok | ⟨hlarge, e, herr⟩
      · exact .inl hok
      · refine .inr ⟨?_, e, herr⟩
        rwa [length_append, Nat.add_assoc, ← length_append] at hlarge
    · refine hidread.bind ?_
      rw [hs.1]
      exact hread hs.2
    · obtain ⟨schemaId, start, hfirst, hrest⟩ := Parser.bind_eq_ok hok
      rw [length_append] at hlimit
      have hpair := ok.inj (hfirst.symm.trans (hidread data pos hat.left (by omega)))
      obtain rfl : schemaId = r.type.schema.schemaId := congrArg Prod.fst hpair
      obtain rfl : start = pos + id.length := congrArg Prod.snd hpair
      cases htype : service r.type.schema.schemaId with
      | none =>
        rw [htype] at hrest
        cases hrest
      | some type =>
        rw [htype] at hrest
        obtain ⟨reader, -, hvalues⟩ := bind_eq_ok hrest
        obtain ⟨values, -, hlast⟩ := bind_eq_ok hvalues
        have hrecord : (⟨type, values⟩ : Record R) = r :=
          congrArg Prod.fst (ok.inj hlast)
        obtain rfl : type = r.type := congrArg Record.type hrecord
        exact hlost (fun hsurvives => hs ⟨htype, hsurvives⟩) data _ next hat.right (by omega)
          hrest

def nestedSize : (n : ℕ) → Nested n → ℕ
  | 0, r => Empty.elim r
  | n + 1, r => 8 + Record.size (nestedSize n) r

/-- A nested record comes back when the service knows its schema and its values come
back. -/
def NestedSurvives (service : SchemaService) : (n : ℕ) → Nested n → Prop
  | 0, r => Empty.elim r
  | n + 1, r =>
    service (Record.type r).schema.schemaId = some (Record.type r) ∧
      Record.Survives (NestedSurvives service n) r

theorem nestedLaw (order : ByteOrder) (service : SchemaService) (n : ℕ) (r : Nested n) :
    ItemLaw ((nestedCodec order service n).write r) (nestedCodec order service n).read r
      (nestedSize n r) (NestedSurvives service n r) := by
  induction n with
  | zero => cases r
  | succ n ih => exact recordCodecLaw order service ih r

end Nesting

/-- A record that is written in any order of its fields and read again is the same, exactly
when its values survive and it fits into the positions of an `int`. -/
theorem roundTrip_eq_iff (order : ByteOrder) (service : SchemaService) (n : ℕ)
    (r : Record (Nested n)) (es : List (Entry (Nested n))) (hperm : es.Perm r.entries)
    (out : Output) :
    roundTrip order (nestedCodec order service n) r.type es out = .ok r ↔
      r.Survives (NestedSurvives service n) ∧ out.length + r.size (nestedSize n) ≤ intMax := by
  rcases fills_or order (nestedLaw order service n) r hperm with
    ⟨⟨b, h⟩, hbooleans⟩ | ⟨hwrite, hlost⟩
  · have hsize := h.bytes_length
    rcases h.appends out with hok | ⟨hlarge, e, herr⟩
    · have hat : At (out ++ b.bytes order) out.length (b.bytes order) := At.self _ _
      rw [roundTrip, hok, ok_bind]
      by_cases hfits : out.length + (b.bytes order).length ≤ intMax
      · rw [and_iff_left (by omega)]
        constructor
        · intro hread
          obtain ⟨⟨r', next⟩, hread', hlast⟩ := bind_eq_ok hread
          obtain rfl : r' = r := ok.inj hlast
          exact ⟨hbooleans, ((h.readRecord_iff hat hfits next).mp hread').1⟩
        · intro hs
          rw [(h.readRecord_iff hat hfits _).mpr ⟨hs.2, rfl⟩, ok_bind]
      · have hle : r.type.schema.numberOfVarSizeFields ≠ 0 → b.length ≤ intMax :=
          fun hvariable => h.fits hvariable _ _ hok
        obtain ⟨e, herr⟩ := h.readRecord_error hat hle (Nat.not_le.mp hfits)
        rw [herr, error_bind]
        exact iff_of_false (by rintro ⟨⟩) fun hs => hfits (by omega)
    · rw [roundTrip, herr, error_bind]
      exact iff_of_false (by rintro ⟨⟩) fun hs => by omega
  · obtain ⟨e, herr⟩ := hwrite out
    rw [roundTrip, herr, error_bind]
    exact iff_of_false (by rintro ⟨⟩) fun hs => hlost hs.1

def arrayType : BuiltSchema where
  fields := ⟨[([97], .arrayOf (.numeric .int8))], nodup_singleton _⟩
  schema :=
    { typeName := []
      fields := [([97], { kind := .arrayOf (.numeric .int8), index := 0 })]
      fixedSizeFieldsLength := 0
      numberOfVarSizeFields := 1
      schemaId := fingerprint [] [([97], { kind := .arrayOf (.numeric .int8) })] }
  built := rfl

def arrayRecord (value : Option (List (BitVec 8))) : Record (Nested 0) := ⟨arrayType, (value, ())⟩

/-- An array without numbers comes back as an absent one. -/
theorem roundTrip_empty_array :
    roundTrip .little (nestedCodec .little (fun _ => none) 0) arrayType
        (arrayRecord (some [])).entries [] = .ok (arrayRecord none) ∧
      (arrayRecord (some [])).values ≠ (arrayRecord none).values := by
  refine ⟨rfl, ?_⟩
  intro h
  cases congrArg Prod.fst h

theorem roundTrip_one_number :
    roundTrip .little (nestedCodec .little (fun _ => none) 0) arrayType
      (arrayRecord (some [1])).entries [] = .ok (arrayRecord (some [1])) := by
  refine (roundTrip_eq_iff .little (fun _ => none) 0 (arrayRecord (some [1])) _
    (List.Perm.refl _) []).mpr ⟨⟨by decide, fun e he => ?_⟩, by decide⟩
  obtain rfl : e = ⟨[97], .arrayOf (.numeric .int8), some [1]⟩ := mem_singleton.mp he
  intro vs hvs
  obtain rfl := Option.some.inj hvs
  exact cons_ne_nil _ _

end HazelcastClient.Serialization.Compact
