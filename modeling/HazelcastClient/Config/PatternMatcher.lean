import HazelcastClient.Util.RunningMaximum
import HazelcastClient.Util.Substring
import Mathlib.Data.List.AList

/-!
# Configurations for names with a wildcard

A configuration is looked up under the name itself and then under the patterns that match
the name. `matching_point_config_pattern_matcher` tests the two parts of a pattern one by
one and takes the pattern with the longest parts.

The two tests do not see each other, so that the parts may overlap in the name, and the
second one takes a part that is longer than the name by one for a suffix.
-/

namespace HazelcastClient.Config

open RunningMaximum Substring List Option

/-- A `std::string`; `npos` is not a length. -/
structure StdString where
  bytes : List UInt8
  size_lt : bytes.length < npos
  deriving DecidableEq

namespace StdString

def length (s : StdString) : ℕ := s.bytes.length

end StdString

/-- The character `*`. -/
def star : UInt8 := 42

/-- The conversion of a `size_t` to an `int`. -/
def toInt (n : ℕ) : ℤ := (n : ℤ).bmod (2 ^ 32)

def getMatchingPoint (pattern itemName : StdString) : ℤ :=
  if star ∉ pattern.bytes then -1
  else
    let index := pattern.bytes.idxOf star
    let firstPart := pattern.bytes.take index
    if find itemName.bytes firstPart ≠ 0 then -1
    else
      let secondPart := pattern.bytes.drop (index + 1)
      if rfind itemName.bytes secondPart ≠ sizeSub itemName.length secondPart.length then -1
      else toInt (firstPart.length + secondPart.length)

/-- `invalid_configuration`, with what its message tells. -/
structure InvalidConfiguration where
  source : String
  itemName : StdString
  candidate : StdString
  duplicate : StdString
  deriving DecidableEq

def InvalidConfiguration.message (e : InvalidConfiguration) : List UInt8 :=
  "Configuration ".toUTF8.toList ++ e.itemName.bytes ++
    " has duplicate configuration. Candidate:".toUTF8.toList ++ e.candidate.bytes ++
    ", duplicate:".toUTF8.toList ++ e.duplicate.bytes

/-- `matches`. -/
def matchPatterns (configPatterns : List StdString) (itemName : StdString) :
    Except InvalidConfiguration (Option StdString) :=
  let found := scan (fun pattern => getMatchingPoint pattern itemName) configPatterns
  match found.candidate, found.duplicate with
  | some candidate, some duplicate =>
    .error ⟨"MatchingPointConfigPatternMatcher::matches", itemName, candidate, duplicate⟩
  | candidate, _ => .ok candidate

section Lookup

variable {T : Type}

/-- A pointer to a configuration: the key that it is stored under, and the configuration. -/
def entry (configs : AList fun _ : StdString => T) (key : StdString) : Option (StdString × T) :=
  (configs.lookup key).map fun config => (key, config)

def lookupByPattern (configs : AList fun _ : StdString => T) (itemName : StdString) :
    Except InvalidConfiguration (Option (StdString × T)) :=
  match entry configs itemName with
  | some config => .ok (some config)
  | none =>
    match matchPatterns configs.keys itemName with
    | .error e => .error e
    | .ok none => .ok none
    | .ok (some key) => .ok (entry configs key)

end Lookup

/-! ## What a pattern describes -/

/-- A key `a*b` and a name `a w b`. -/
def Describes (key name : StdString) : Prop :=
  ∃ a w b, key.bytes = a ++ star :: b ∧ name.bytes = a ++ w ++ b

def partsLength (key : StdString) : ℕ := key.length - 1

/-- The parts overlap in the name, or the second one is just too long for it. -/
def MatchesFalsely (key name : StdString) : Prop :=
  ∃ a b, key.bytes = a ++ star :: b ∧ a <+: name.bytes ∧
    (b <:+ name.bytes ∧ name.length < a.length + b.length ∨ b.length = name.length + 1)

theorem Describes.star_mem {key name : StdString} (h : Describes key name) :
    star ∈ key.bytes := by
  obtain ⟨a, w, b, hkey, -⟩ := h
  rw [hkey]
  exact mem_append_right _ mem_cons_self

theorem MatchesFalsely.star_mem {key name : StdString} (h : MatchesFalsely key name) :
    star ∈ key.bytes := by
  obtain ⟨a, b, hkey, -⟩ := h
  rw [hkey]
  exact mem_append_right _ mem_cons_self

structure Parts (key : StdString) where
  first : List UInt8
  second : List UInt8
  bytes_eq : key.bytes = first ++ star :: second
  star_notMem_first : star ∉ first
  star_notMem_second : star ∉ second

theorem exists_parts {key : StdString} (hcount : key.bytes.count star ≤ 1)
    (hstar : star ∈ key.bytes) : Nonempty (Parts key) := by
  obtain ⟨a, b, hbytes⟩ := append_of_mem hstar
  rw [hbytes, count_append, count_cons_self] at hcount
  exact ⟨⟨a, b, hbytes, count_eq_zero.mp (by omega), count_eq_zero.mp (by omega)⟩⟩

namespace Parts

variable {key name : StdString}

section

variable (p : Parts key)

include p

theorem eq_of_bytes_eq {a b : List UInt8} (h : key.bytes = a ++ star :: b) :
    a = p.first ∧ b = p.second := by
  rw [p.bytes_eq] at h
  obtain ⟨hfirst, -, hsecond⟩ :=
    (append_cons_inj_of_notMem p.star_notMem_first p.star_notMem_second).mp h
  exact ⟨hfirst.symm, hsecond.symm⟩

theorem length_eq : key.length = p.first.length + p.second.length + 1 := by
  rw [StdString.length, p.bytes_eq, length_append, length_cons]
  rfl

theorem partsLength_eq : partsLength key = p.first.length + p.second.length := by
  rw [partsLength, p.length_eq, Nat.add_sub_cancel]

theorem describes_iff : Describes key name ↔
    p.first <+: name.bytes ∧ p.second <:+ name.bytes ∧ partsLength key ≤ name.length := by
  constructor
  · rintro ⟨a, w, b, hkey, hname⟩
    obtain ⟨rfl, rfl⟩ := p.eq_of_bytes_eq hkey
    rw [StdString.length, p.partsLength_eq, hname]
    refine ⟨?_, suffix_append _ _, ?_⟩
    · rw [append_assoc]
      exact prefix_append _ _
    · simp only [length_append]
      omega
  · rintro ⟨⟨w, hfirst⟩, hsecond, hle⟩
    rw [StdString.length, p.partsLength_eq, ← hfirst, length_append] at hle
    -- what follows the first part has room for the second one
    have hsuffix : p.second <:+ w := by
      refine suffix_of_suffix_length_le hsecond ?_ (by omega)
      rw [← hfirst]
      exact suffix_append _ _
    obtain ⟨v, rfl⟩ := hsuffix
    exact ⟨p.first, v, p.second, p.bytes_eq, by rw [← hfirst, append_assoc]⟩

theorem matchesFalsely_iff : MatchesFalsely key name ↔
    p.first <+: name.bytes ∧
      (p.second <:+ name.bytes ∧ name.length < partsLength key ∨
        p.second.length = name.length + 1) := by
  rw [p.partsLength_eq]
  constructor
  · rintro ⟨a, b, hkey, h⟩
    obtain ⟨rfl, rfl⟩ := p.eq_of_bytes_eq hkey
    exact h
  · intro h
    exact ⟨p.first, p.second, p.bytes_eq, h⟩

theorem describes_or_matchesFalsely_iff : Describes key name ∨ MatchesFalsely key name ↔
    p.first <+: name.bytes ∧
      (p.second <:+ name.bytes ∨ p.second.length = name.length + 1) := by
  rw [p.describes_iff, p.matchesFalsely_iff]
  constructor
  · rintro (⟨hfirst, hsecond, -⟩ | ⟨hfirst, ⟨hsecond, -⟩ | hlong⟩)
    · exact ⟨hfirst, .inl hsecond⟩
    · exact ⟨hfirst, .inl hsecond⟩
    · exact ⟨hfirst, .inr hlong⟩
  · rintro ⟨hfirst, hsecond | hlong⟩
    · rcases le_or_gt (partsLength key) name.length with hle | hlt
      · exact .inl ⟨hfirst, hsecond, hle⟩
      · exact .inr ⟨hfirst, .inl ⟨hsecond, hlt⟩⟩
    · exact .inr ⟨hfirst, .inr hlong⟩

theorem length_lt_of_matchesFalsely (h : MatchesFalsely key name) :
    name.length < partsLength key := by
  obtain ⟨-, ⟨-, hlt⟩ | hlong⟩ := p.matchesFalsely_iff.mp h
  · exact hlt
  · rw [p.partsLength_eq]
    omega

end

open Classical in
theorem getMatchingPoint_eq (p : Parts key) : getMatchingPoint key name =
    if Describes key name ∨ MatchesFalsely key name then toInt (partsLength key) else -1 := by
  have hstar : star ∈ key.bytes := by
    rw [p.bytes_eq]
    exact mem_append_right _ mem_cons_self
  have hindex : key.bytes.idxOf star = p.first.length := by
    rw [p.bytes_eq, idxOf_append_of_notMem p.star_notMem_first, idxOf_cons_self,
      Nat.add_zero]
  have htake : key.bytes.take p.first.length = p.first := by
    rw [p.bytes_eq, take_left]
  have hdrop : key.bytes.drop (p.first.length + 1) = p.second := by
    rw [p.bytes_eq, drop_append]
    simp
  have hsecond : p.second.length < npos := by
    have hkey := key.size_lt
    rw [p.bytes_eq, length_append, length_cons] at hkey
    omega
  unfold getMatchingPoint
  simp only [hstar, not_true_eq_false, ↓reduceIte, hindex, htake, hdrop, ne_eq,
    find_eq_zero_iff, p.describes_or_matchesFalsely_iff, ← p.partsLength_eq,
    StdString.length, rfind_eq_sizeSub_iff name.size_lt hsecond]
  by_cases hfirst : p.first <+: name.bytes
  · by_cases hmatch : p.second <:+ name.bytes ∨ p.second.length = name.bytes.length + 1
    · simp only [hfirst, hmatch, not_true_eq_false, ↓reduceIte, and_self]
    · simp only [hfirst, hmatch, not_true_eq_false, not_false_eq_true, ↓reduceIte, and_false]
  · simp only [hfirst, not_false_eq_true, ↓reduceIte, false_and]

end Parts

theorem toInt_of_lt {n : ℕ} (h : n < 2 ^ 31) : toInt n = n :=
  Int.bmod_eq_of_le (by omega) (by omega)

section Short

variable {key other name : StdString}

open Classical in
theorem getMatchingPoint_of_short (hcount : key.bytes.count star ≤ 1)
    (hshort : partsLength key < 2 ^ 31) : getMatchingPoint key name =
      if Describes key name ∨ MatchesFalsely key name then (partsLength key : ℤ) else -1 := by
  by_cases hstar : star ∈ key.bytes
  · obtain ⟨p⟩ := exists_parts hcount hstar
    rw [p.getMatchingPoint_eq, toInt_of_lt hshort]
  · rw [getMatchingPoint, if_pos hstar, if_neg]
    rintro (h | h)
    · exact hstar h.star_mem
    · exact hstar h.star_mem

/-- A key that matches falsely has longer parts than all keys that describe the name. -/
theorem partsLength_lt_of_matchesFalsely (hkey : key.bytes.count star ≤ 1)
    (hother : other.bytes.count star ≤ 1) (hd : Describes key name)
    (hfalse : MatchesFalsely other name) : partsLength key < partsLength other := by
  obtain ⟨p⟩ := exists_parts hkey hd.star_mem
  obtain ⟨q⟩ := exists_parts hother hfalse.star_mem
  exact (p.describes_iff.mp hd).2.2.trans_lt (q.length_lt_of_matchesFalsely hfalse)

end Short

/-! ## The configuration that a name should get -/

open Classical in
noncomputable def describedLength (name key : StdString) : ℤ :=
  if Describes key name then partsLength key else -1

section Lookup

variable {T : Type} {configs : AList fun _ : StdString => T}
  {result : Except InvalidConfiguration (Option (StdString × T))} {name : StdString}

/-- The configuration stored under the name; or else none if no key describes it, that of
the describing key with the longest parts, and an exception if several have them. -/
structure Specified (configs : AList fun _ : StdString => T) (name : StdString)
    (result : Except InvalidConfiguration (Option (StdString × T))) : Prop where
  exact : ∀ config, configs.lookup name = some config → result = .ok (some (name, config))
  undescribed : configs.lookup name = none → (∀ key ∈ configs.keys, ¬ Describes key name) →
    result = .ok none
  longest : configs.lookup name = none → ∀ key ∈ configs.keys, Describes key name →
    (∀ other ∈ configs.keys, Describes other name → other ≠ key →
      partsLength other < partsLength key) → result = .ok (entry configs key)
  several : configs.lookup name = none → ∀ key ∈ configs.keys, Describes key name →
    (∀ other ∈ configs.keys, Describes other name → partsLength other ≤ partsLength key) →
    (∃ other ∈ configs.keys, Describes other name ∧ other ≠ key ∧
      partsLength other = partsLength key) → ∃ e, result = .error e

def Settled (configs : AList fun _ : StdString => T)
    (result : Except InvalidConfiguration (Option (StdString × T))) : List StdString → Prop
  | [] => result = .ok none
  | [key] => result = .ok (entry configs key)
  | _ => ∃ e, result = .error e

theorem settled_matched (configs : AList fun _ : StdString => T)
    (hname : configs.lookup name = none) :
    Settled configs (lookupByPattern configs name)
      (leaders (fun key => getMatchingPoint key name) configs.keys) := by
  have hentry : entry configs name = none := by rw [entry, hname, map_none]
  unfold lookupByPattern
  simp only [hentry, matchPatterns, scan_eq]
  generalize leaders (fun key => getMatchingPoint key name) configs.keys = winners
  cases winners with
  | nil => rfl
  | cons first rest =>
    cases rest with
    | nil => rfl
    | cons second rest =>
      -- the scan has kept two of the winners
      rw [List.getLast?_cons_cons, dropLast_cons_cons]
      obtain ⟨candidate, hcandidate⟩ : ∃ candidate,
          (second :: rest).getLast? = some candidate :=
        isSome_iff_exists.mp (by simp)
      obtain ⟨duplicate, hduplicate⟩ : ∃ duplicate,
          (first :: (second :: rest).dropLast).getLast? = some duplicate :=
        isSome_iff_exists.mp (by simp)
      rw [hcandidate, hduplicate]
      exact ⟨_, rfl⟩

theorem mem_leaders_describedLength {name key : StdString} {keys : List StdString} :
    key ∈ leaders (describedLength name) keys ↔ key ∈ keys ∧ Describes key name ∧
      ∀ other ∈ keys, Describes other name → partsLength other ≤ partsLength key := by
  have hscore : ∀ key, 0 ≤ describedLength name key ↔ Describes key name := by
    intro key
    unfold describedLength
    split
    · exact iff_of_true (Int.natCast_nonneg _) ‹_›
    · exact iff_of_false (by decide) ‹_›
  rw [mem_leaders, hscore]
  refine and_congr_right fun _ => and_congr_right fun hkey => ?_
  have hlength : describedLength name key = partsLength key := if_pos hkey
  refine forall_congr' fun other => forall_congr' fun _ => ?_
  by_cases hother : Describes other name
  · rw [hlength, show describedLength name other = partsLength other from if_pos hother,
      Int.ofNat_le]
    exact ⟨fun h _ => h, fun h => h hother⟩
  · rw [hlength, show describedLength name other = -1 from if_neg hother]
    exact iff_of_true (by omega) fun h => absurd h hother

theorem nodup_leaders (configs : AList fun _ : StdString => T) (score : StdString → ℤ) :
    (leaders score configs.keys).Nodup :=
  configs.keys_nodup.filter _

theorem specified_iff_settled (hname : configs.lookup name = none) :
    Specified configs name result ↔
      Settled configs result (leaders (describedLength name) configs.keys) := by
  have hnodup := nodup_leaders configs (describedLength name)
  have hwins (key : StdString) : key ∈ leaders (describedLength name) configs.keys ↔ _ :=
    mem_leaders_describedLength
  have hsome (key : StdString) (hkey : key ∈ configs.keys) (hd : Describes key name) :
      leaders (describedLength name) configs.keys ≠ [] := by
    have hscore : 0 ≤ describedLength name key := by
      rw [describedLength, if_pos hd]
      exact Int.natCast_nonneg _
    obtain ⟨winner, hwinner, -⟩ := exists_leader _ hkey hscore
    exact ne_nil_of_mem hwinner
  have hexact : ∀ config, configs.lookup name = some config →
      result = .ok (some (name, config)) := by simp [hname]
  generalize leaders (describedLength name) configs.keys = winners at hnodup hwins hsome ⊢
  rcases winners with _ | ⟨first, _ | ⟨second, rest⟩⟩
  · have hnone (key : StdString) (hkey : key ∈ configs.keys) : ¬ Describes key name :=
      fun hd => hsome key hkey hd rfl
    exact ⟨fun h => h.undescribed hname hnone, fun h => ⟨hexact, fun _ _ => h,
      fun _ key hkey hd => absurd hd (hnone key hkey),
      fun _ key hkey hd => absurd hd (hnone key hkey)⟩⟩
  · obtain ⟨hmem, hd, hmax⟩ := (hwins first).mp mem_cons_self
    refine ⟨fun h => h.longest hname first hmem hd fun other hother hd' hne => ?_,
      fun h => ⟨hexact, fun _ hnone => absurd hd (hnone first hmem),
        fun _ key hkey hd' hlongest => ?_, fun _ key hkey hd' hmax' hother => ?_⟩⟩
    · refine lt_of_le_of_ne (hmax other hother hd') fun heq => hne ?_
      exact mem_singleton.mp ((hwins other).mpr ⟨hother, hd', heq ▸ hmax⟩)
    · obtain rfl : key = first := by_contra fun hne =>
        (hlongest first hmem hd (Ne.symm hne)).not_ge (hmax key hkey hd')
      exact h
    · obtain ⟨other, hmem', hd'', hne, heq⟩ := hother
      have hkeyWins := mem_singleton.mp ((hwins key).mpr ⟨hkey, hd', hmax'⟩)
      have hotherWins := mem_singleton.mp ((hwins other).mpr ⟨hmem', hd'', heq ▸ hmax'⟩)
      exact absurd (hotherWins.trans hkeyWins.symm) hne
  · obtain ⟨hmem, hd, hmax⟩ := (hwins first).mp mem_cons_self
    obtain ⟨hmem', hd', hmax'⟩ := (hwins second).mp (mem_cons_of_mem _ mem_cons_self)
    have hne : second ≠ first := by
      rintro rfl
      exact (nodup_cons.mp hnodup).1 mem_cons_self
    have heq := le_antisymm (hmax second hmem' hd') (hmax' first hmem hd)
    refine ⟨fun h => h.several hname first hmem hd hmax ⟨second, hmem', hd', hne, heq⟩,
      fun h => ⟨hexact, fun _ hnone => absurd hd (hnone first hmem),
        fun _ key hkey hd'' hlongest => ?_, fun _ _ _ _ _ _ => h⟩⟩
    -- a key longer than all others would be both winners
    have hfirst : first = key := by_contra fun hne =>
      (hlongest first hmem hd hne).not_ge (hmax key hkey hd'')
    have hsecond : second = key := by_contra fun hne =>
      (hlongest second hmem' hd' hne).not_ge (hmax' key hkey hd'')
    exact absurd (hsecond.trans hfirst.symm) hne

/-- Two lists of winners have the same consequence only if they are equal or both of them
have several. -/
theorem settled_both_iff {winners winners' : List StdString}
    (hmem : ∀ key ∈ winners, key ∈ configs.keys) (hmem' : ∀ key ∈ winners', key ∈ configs.keys)
    (h : Settled configs result winners) :
    Settled configs result winners' ↔
      winners' = winners ∨ 2 ≤ winners'.length ∧ 2 ≤ winners.length := by
  have hentry : ∀ key ∈ configs.keys, ∃ config, entry configs key = some (key, config) := by
    intro key hkey
    obtain ⟨config, hconfig⟩ := isSome_iff_exists.mp (AList.lookup_isSome.mpr hkey)
    exact ⟨config, by rw [entry, hconfig, map_some]⟩
  constructor
  · intro h'
    rcases winners with _ | ⟨key, _ | ⟨second, rest⟩⟩
    · cases (show result = .ok none from h)
      rcases winners' with _ | ⟨key', _ | ⟨second', rest'⟩⟩
      · exact .inl rfl
      · obtain ⟨config, hconfig⟩ := hentry key' (hmem' key' mem_cons_self)
        rw [Settled, hconfig] at h'
        cases h'
      · obtain ⟨e, he⟩ := h'
        cases he
    · obtain ⟨config, hconfig⟩ := hentry key (hmem key mem_cons_self)
      rw [Settled, hconfig] at h
      cases h
      rcases winners' with _ | ⟨key', _ | ⟨second', rest'⟩⟩
      · cases h'
      · obtain ⟨config', hconfig'⟩ := hentry key' (hmem' key' mem_cons_self)
        rw [Settled, hconfig'] at h'
        cases h'
        exact .inl rfl
      · obtain ⟨e, he⟩ := h'
        cases he
    · obtain ⟨e, rfl⟩ := h
      rcases winners' with _ | ⟨key', _ | ⟨second', rest'⟩⟩
      · cases h'
      · cases h'
      · exact .inr ⟨by simp, by simp⟩
  · rintro (rfl | ⟨hseveral', hseveral⟩)
    · exact h
    · rcases winners with _ | ⟨key, _ | ⟨second, rest⟩⟩
      · cases hseveral
      · exact absurd hseveral (by simp)
      · rcases winners' with _ | ⟨key', _ | ⟨second', rest'⟩⟩
        · cases hseveral'
        · exact absurd hseveral' (by simp)
        · exact h

/-- The keys with the longest parts among those with a property. -/
def Longest (configs : AList fun _ : StdString => T) (P : StdString → Prop)
    (key : StdString) : Prop :=
  key ∈ configs.keys ∧ P key ∧
    ∀ other ∈ configs.keys, P other → partsLength other ≤ partsLength key

/-- Several keys have the longest parts among those with a property. -/
def Tied (configs : AList fun _ : StdString => T) (P : StdString → Prop) : Prop :=
  ∃ key other, Longest configs P key ∧ Longest configs P other ∧ key ≠ other

theorem two_le_length_leaders_iff {score : StdString → ℤ} {P : StdString → Prop}
    (h : ∀ key, key ∈ leaders score configs.keys ↔ Longest configs P key) :
    2 ≤ (leaders score configs.keys).length ↔ Tied configs P := by
  have hnodup := nodup_leaders configs score
  unfold Tied
  simp only [← h]
  generalize leaders score configs.keys = winners at hnodup
  rcases winners with _ | ⟨first, _ | ⟨second, rest⟩⟩
  · simp
  · simp
  · refine iff_of_true (by simp) ⟨first, second, mem_cons_self, by simp, ?_⟩
    rintro rfl
    exact (nodup_cons.mp hnodup).1 mem_cons_self

section Short

variable (hstars : ∀ key ∈ configs.keys, key.bytes.count star ≤ 1)
  (hshort : ∀ key ∈ configs.keys, partsLength key < 2 ^ 31)

include hstars hshort

/-- As soon as a key matches falsely, only such keys win. -/
theorem mem_leaders_getMatchingPoint (hfalse : ∃ key ∈ configs.keys, MatchesFalsely key name)
    (key : StdString) : key ∈ leaders (fun key => getMatchingPoint key name) configs.keys ↔
      Longest configs (MatchesFalsely · name) key := by
  classical
  have hpoint : ∀ other ∈ configs.keys, getMatchingPoint other name = _ :=
    fun other h => getMatchingPoint_of_short (hstars other h) (hshort other h)
  rw [mem_leaders]
  constructor
  · rintro ⟨hkey, hnonneg, hmax⟩
    have hmatch : Describes key name ∨ MatchesFalsely key name := by
      by_contra h
      rw [hpoint key hkey, if_neg h] at hnonneg
      omega
    have hle : ∀ other ∈ configs.keys, MatchesFalsely other name →
        partsLength other ≤ partsLength key := by
      intro other hother h
      have hother := hpoint other hother ▸ hmax other hother
      rwa [if_pos (.inr h), hpoint key hkey, if_pos hmatch, Int.ofNat_le] at hother
    refine ⟨hkey, hmatch.resolve_left fun hd => ?_, hle⟩
    obtain ⟨other, hother, h⟩ := hfalse
    exact (partsLength_lt_of_matchesFalsely (hstars key hkey) (hstars other hother) hd h).not_ge
      (hle other hother h)
  · rintro ⟨hkey, h, hmax⟩
    rw [hpoint key hkey, if_pos (.inr h)]
    refine ⟨hkey, Int.natCast_nonneg _, fun other hother => ?_⟩
    rw [hpoint other hother]
    split_ifs with hmatch
    · rw [Int.ofNat_le]
      rcases hmatch with hd | hfalse
      · exact (partsLength_lt_of_matchesFalsely (hstars other hother) (hstars key hkey) hd h).le
      · exact hmax other hother hfalse
    · omega

theorem leaders_eq_iff : leaders (describedLength name) configs.keys =
    leaders (fun key => getMatchingPoint key name) configs.keys ↔
      ∀ key ∈ configs.keys, ¬ MatchesFalsely key name := by
  classical
  constructor
  · intro heq key hkey hfalse
    have hpoint : 0 ≤ getMatchingPoint key name := by
      rw [getMatchingPoint_of_short (hstars key hkey) (hshort key hkey), if_pos (.inr hfalse)]
      exact Int.natCast_nonneg _
    obtain ⟨winner, hwinner, -⟩ :=
      exists_leader (fun key => getMatchingPoint key name) hkey hpoint
    obtain ⟨hmem, hfalse', -⟩ :=
      (mem_leaders_getMatchingPoint hstars hshort ⟨key, hkey, hfalse⟩ winner).mp hwinner
    obtain ⟨-, hd, -⟩ := mem_leaders_describedLength.mp (heq ▸ hwinner)
    exact (partsLength_lt_of_matchesFalsely (hstars winner hmem) (hstars winner hmem) hd
      hfalse').ne rfl
  · intro hnone
    refine leaders_congr fun key hkey => ?_
    rw [getMatchingPoint_of_short (hstars key hkey) (hshort key hkey), describedLength]
    exact if_congr (or_iff_left (hnone key hkey)).symm rfl rfl

end Short

end Lookup

/-! ### Maps with one pattern -/

/-- A map with the configuration `0` for one key. -/
def single (key : StdString) : AList fun _ : StdString => ℕ := AList.singleton key 0

end HazelcastClient.Config
