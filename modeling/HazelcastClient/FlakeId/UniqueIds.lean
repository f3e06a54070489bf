import HazelcastClient.FlakeId.AutoBatcher
import Mathlib.Data.List.Count
import Mathlib.Data.List.Nodup

/-!
# Unique flake ids

An id leaves a block with the step that counts it, so the ids on their way to a caller and
those delivered are among the ids that the blocks have counted. A promise belongs to one
frame until it is completed. While a fetch is under way `fetch_in_progress_` refers to it: it
is reset only by a continuation of the fetch of the same generation, which is over by then.
-/

namespace HazelcastClient.FlakeId

open Interleaving List Option AutoBatcher Frame Effect Asker Block

/-! ## Promises and ids -/

def Frame.promise? : Frame → Option ℕ
  | newId p | tryGetId p | deliver p _ _ | lock p _ | doubleCheck p _ | elect p | await p _ _
  | clear p _ _ | get p _ => some p
  | expiry _ a | load _ a | exchange _ _ a => some a.promise
  | _ => none

def Event.promise? : Event → Option ℕ
  | delivered p _ | failed p _ => some p
  | requested _ => none

def completions (events : List Event) : List ℕ := events.filterMap Event.promise?

def waiting (frames : List Frame) : List ℕ := frames.filterMap promise?

def Frame.value? : Frame → Option ℤ
  | deliver _ value _ => some value
  | _ => none

def Event.value? : Event → Option ℤ
  | delivered _ value => some value
  | _ => none

def delivered (events : List Event) : List ℤ := events.filterMap Event.value?

def underWay (frames : List Frame) : List ℤ := frames.filterMap value?

def taken (blocks : List Block) : List ℤ := blocks.flatMap Block.taken

theorem filterMap_cons_eq {α β : Type} (g : α → Option β) (a : α) (l : List α) :
    (a :: l).filterMap g = (g a).toList ++ l.filterMap g := by
  cases hg : g a with
  | none | some b => simp [hg]

namespace Asker

@[simp] theorem promise_missed (a : Asker) : a.missed.promise? = some a.promise := by
  cases a <;> rfl

@[simp] theorem promise_got (a : Asker) (value : ℤ) : (a.got value).promise? = some a.promise := by
  unfold got
  split
  · exact a.promise_missed
  · rfl

@[simp] theorem value_missed (a : Asker) : a.missed.value? = none := by
  cases a <;> rfl

end Asker

section Step

variable {cfg : AutoBatcher} {s : State} {choice : Choice} {f : Frame}
  {e : Effect State Unit Frame Event}

theorem promise_of_fire (h : cfg.fire s choice f = some e) :
    waiting e.frames ++ completions e.event.toList = f.promise?.toList ∧
      e.shared.promises = s.promises := by
  -- the frames that follow `block::next` have the promise of who has asked
  have hnext : ∀ a : Asker, ∀ g : Frame, g.promise? = some a.promise →
      waiting ([g] ++ []) ++ completions [] = [a.promise] := by
    intro a g hg
    simp [waiting, completions, hg]
  cases fired_of_fire h with
  | expired b a | usedUp b a => exact ⟨hnext a _ a.promise_missed, rfl⟩
  | took b a hb => exact ⟨hnext a _ (a.promise_got _), rfl⟩
  | _ =>
    simp [waiting, completions, promise?, Event.promise?, spawnedFrames,
      filterMap_cons, promise]

theorem taken_set {blocks : List Block} {b : ℕ} {block : Block} (hb : blocks[b]? = some block) :
    (taken (blocks.set b { block with numReturned := block.numReturned + 1 })).Perm
      (block.batch.id block.numReturned :: taken blocks) := by
  obtain ⟨hlt, hget⟩ := List.getElem?_eq_some_iff.mp hb
  have hblocks : blocks = blocks.take b ++ block :: blocks.drop (b + 1) := by
    rw [← hget, cons_getElem_drop_succ, take_append_drop]
  have hone : Block.taken { block with numReturned := block.numReturned + 1 } =
      block.taken ++ [block.batch.id block.numReturned] := by
    simp [Block.taken, range_succ]
  rw [set_eq_take_append_cons_drop, if_pos hlt]
  conv_rhs => rw [hblocks]
  simp only [taken, flatMap_append, flatMap_cons, hone, append_assoc,
    cons_append, nil_append]
  exact (perm_middle.append_left _).trans perm_middle

theorem value_of_fire (h : cfg.fire s choice f = some e) (v : ℤ) :
    (underWay e.frames).count v + (delivered e.event.toList).count v +
      (taken s.blocks).count v ≤ f.value?.toList.count v + (taken e.shared.blocks).count v := by
  cases fired_of_fire h with
  | expired b a | usedUp b a => simp [underWay, delivered, spawnedFrames]
  | @took b a block hb =>
    have hgot : (underWay [a.got (block.batch.id block.numReturned)]).count v ≤
        [block.batch.id block.numReturned].count v := by
      unfold got
      split
      · simp [underWay]
      · exact le_rfl
    have hcount := (taken_set hb).count_eq v
    rw [count_cons] at hcount
    simp only [count_singleton] at hgot
    simp only [Effect.frames, spawnedFrames, flatMap_nil, append_nil, delivered,
      toList_none, filterMap_nil, count_nil, value?]
    omega
  | supplied fetch batch now =>
    simp [underWay, delivered, value?, spawnedFrames, taken, taken, new,
      filterMap_cons]
  | _ =>
    simp [underWay, delivered, value?, Event.value?, spawnedFrames,
      filterMap_cons]

end Step

/-! ## Blocks -/

def batches (blocks : List Block) : List IdBatch := blocks.map batch

/-- The block has ids, or had some. -/
def Installed (blocks : List Block) (b : ℕ) : Prop :=
  ∃ batch, (batches blocks)[b]? = some batch ∧ 0 < batch.batchSize

theorem Installed.append {blocks blocks' : List Block} {b : ℕ} {more : List IdBatch}
    (h : Installed blocks b) (hmore : batches blocks' = batches blocks ++ more) :
    Installed blocks' b := by
  obtain ⟨batch, hbatch, hpos⟩ := h
  refine ⟨batch, ?_, hpos⟩
  rw [hmore, List.getElem?_append_left (List.getElem?_eq_some_iff.mp hbatch).1, hbatch]

/-- Frames work with blocks that have been found usable, and exchange an index that is not
the last. -/
def Frame.Fits (blocks : List Block) : Frame → Prop
  | expiry b _ | load b _ | store _ b | complete _ b => Installed blocks b
  | exchange b index _ => Installed blocks b ∧
      ∀ batch, (batches blocks)[b]? = some batch → (index : ℤ) ≠ batch.batchSize
  | _ => True

theorem Frame.Fits.append {blocks blocks' : List Block} {f : Frame} {more : List IdBatch}
    (h : f.Fits blocks) (hmore : batches blocks' = batches blocks ++ more) : f.Fits blocks' := by
  cases f with
  | expiry b a | load b a | store fetch b | complete fetch b => exact Installed.append h hmore
  | exchange b index a =>
    obtain ⟨hinstalled, hindex⟩ := h
    refine ⟨hinstalled.append hmore, fun batch hbatch => hindex batch ?_⟩
    obtain ⟨batch', hbatch', -⟩ := hinstalled
    rwa [hmore, List.getElem?_append_left (List.getElem?_eq_some_iff.mp hbatch').1] at hbatch
  | _ => trivial

variable (a : Asker) {frames' : List Frame} {blocks : List Block} (value : ℤ)

theorem Asker.fits_missed (blocks : List Block) : a.missed.Fits blocks := by
  cases a <;> trivial

theorem Asker.fits_got (blocks : List Block) : (a.got value).Fits blocks := by
  unfold got
  split
  · exact a.fits_missed blocks
  · trivial

/-- No block has counted more ids than it has. -/
structure Bounded (s : State) (frames : List Frame) : Prop where
  block : ∀ b ∈ s.block, Installed s.blocks b
  fetches : ∀ (fetch b : ℕ), s.fetches[fetch]? = some (some (Except.ok b)) →
    Installed s.blocks b
  frames : ∀ f ∈ frames, f.Fits s.blocks
  bound : ∀ block ∈ s.blocks, block.numReturned ≤ block.batch.batchSize.toNat

section Blocks

variable {cfg : AutoBatcher} {s : State} {choice : Choice} {f : Frame}
  {e : Effect State Unit Frame Event} {others : List Frame}

theorem batches_set {b : ℕ} {block block' : Block} (hb : blocks[b]? = some block)
    (hsame : block'.batch = block.batch) : batches (blocks.set b block') = batches blocks := by
  have hget : (batches blocks)[b]? = some block'.batch := by
    rw [batches, List.getElem?_map, hb, hsame]
    rfl
  obtain ⟨hlt, hget⟩ := List.getElem?_eq_some_iff.mp hget
  rw [batches, map_set, ← hget]
  exact set_getElem_self hlt

section

variable (h : cfg.fire s choice f = some e)

include h

theorem batches_of_fire : ∃ more, batches e.shared.blocks = batches s.blocks ++ more := by
  cases fired_of_fire h with
  | took b a hb => exact ⟨[], by rw [append_nil]; exact batches_set hb rfl⟩
  | supplied fetch batch now => exact ⟨[batch], by simp [batches, new]⟩
  | _ => exact ⟨[], by rw [append_nil]⟩

theorem block_of_fire {b : ℕ} (hb : e.shared.block = some b) :
    s.block = some b ∨ ∃ fetch, f = .store fetch b := by
  cases fired_of_fire h with
  | stored fetch b' =>
    cases hb
    exact .inr ⟨fetch, rfl⟩
  | _ => exact .inl hb

theorem fetch_of_fire {fetch b : ℕ} (hb : e.shared.fetches[fetch]? = some (some (Except.ok b))) :
    s.fetches[fetch]? = some (some (Except.ok b)) ∨ ∃ fetch', f = .complete fetch' b := by
  cases fired_of_fire h with
  | failed fetch' code =>
    simp only [getElem?_set] at hb
    split at hb
    · split at hb <;> simp at hb
    · exact .inl hb
  | completed fetch' b' =>
    simp only [getElem?_set] at hb
    split at hb
    · split at hb
      · cases some.inj (some.inj hb)
        exact .inr ⟨fetch', rfl⟩
      · cases hb
    · exact .inl hb
  | elected p hnone =>
    refine .inl ?_
    simp only [getElem?_append] at hb
    split at hb
    · exact hb
    · rw [getElem?_singleton] at hb
      split at hb <;> simp at hb
  | _ => exact .inl hb

end

section

variable (hs : Bounded s (f :: others)) (h : cfg.fire s choice f = some e)

include hs h

theorem fits_of_fire : ∀ g ∈ e.frames, g.Fits e.shared.blocks := by
  have hf : f.Fits s.blocks := hs.frames f mem_cons_self
  have hone : ∀ (g' : Frame) (blocks : List Block), g'.Fits blocks →
      ∀ g ∈ [g'] ++ [], g.Fits blocks := by
    intro g' blocks hg' g hg
    rw [append_nil, mem_singleton] at hg
    rwa [hg]
  cases fired_of_fire h with
  | fast p hb | slow p hb | checkAgain p seen hb => exact hone _ _ (hs.block _ hb)
  | fetched p fetch hb => exact hone _ _ (hs.fetches _ _ hb)
  | expired b a | usedUp b a => exact hone _ _ (a.fits_missed _)
  | took b a hb => exact hone _ _ (a.fits_got _ _)
  | valid b a | stored fetch b => exact hone _ _ hf
  | lost b index a => exact hone _ _ hf.1
  | @loaded b a block hb hleft =>
    refine hone _ _ ⟨hf, fun batch hbatch => ?_⟩
    rw [batches, getElem?_map, hb] at hbatch
    rwa [← some.inj hbatch]
  | @usable fetch b block hb hleft =>
    refine hone _ _ ⟨block.batch, ?_, by omega⟩
    rw [batches, getElem?_map, hb]
    rfl
  | elected p hnone =>
    intro g hg
    rcases mem_cons.mp hg with rfl | hg
    · trivial
    · rw [mem_singleton.mp hg]
      trivial
  | delivered p value holds | threw p fetch code | failed fetch code | completed fetch b =>
    intro g hg; cases hg
  | _ => exact hone _ _ trivial

theorem bound_of_fire :
    ∀ block ∈ e.shared.blocks, block.numReturned ≤ block.batch.batchSize.toNat := by
  have hf : f.Fits s.blocks := hs.frames f mem_cons_self
  cases fired_of_fire h with
  | @took b a block hb =>
    intro block' hmem
    rcases mem_or_eq_of_mem_set hmem with hold | rfl
    · exact hs.bound block' hold
    · obtain ⟨⟨batch, hbatch, hpos⟩, hleft⟩ := hf
      have hne := hleft _ hbatch
      have hle := hs.bound block (mem_of_getElem? hb)
      rw [batches, getElem?_map, hb] at hbatch
      obtain rfl : block.batch = batch := some.inj hbatch
      show block.numReturned + 1 ≤ block.batch.batchSize.toNat
      omega
  | supplied fetch batch now =>
    intro block hmem
    rcases mem_append.mp hmem with hold | hnew
    · exact hs.bound block hold
    · rw [mem_singleton.mp hnew]
      exact Nat.zero_le _
  | _ => exact hs.bound

theorem Bounded.fire : Bounded e.shared (e.frames ++ others) := by
  obtain ⟨more, hmore⟩ := batches_of_fire h
  have hf : f.Fits s.blocks := hs.frames f mem_cons_self
  refine ⟨fun b hb => ?_, fun fetch b hb => ?_, fun g hg => ?_, bound_of_fire hs h⟩
  · rcases block_of_fire h hb with hold | ⟨fetch, rfl⟩
    · exact (hs.block b hold).append hmore
    · exact Installed.append hf hmore
  · rcases fetch_of_fire h hb with hold | ⟨fetch', rfl⟩
    · exact (hs.fetches fetch b hold).append hmore
    · exact Installed.append hf hmore
  · rcases mem_append.mp hg with hnew | hold
    · exact fits_of_fire hs h g hnew
    · exact (hs.frames g (mem_cons_of_mem f hold)).append hmore

end

end Blocks

/-! ## Fetches -/

def Frame.fetch? : Frame → Option ℕ
  | supply fetch | response fetch | checkUsable fetch _ | store fetch _ | complete fetch _ =>
    some fetch
  | _ => none

def outstanding (frames : List Frame) : List ℕ := frames.filterMap fetch?

/-- A fetch under way is the one in progress. The continuations of a fetch know its
generation, and those that have started know that it is over. -/
structure Single (s : State) (frames : List Frame) : Prop where
  generation : s.fetches.length = s.fetchGeneration
  inProgress : ∀ fetch ∈ s.fetchInProgress, fetch + 1 = s.fetchGeneration
  outstanding : ∀ fetch ∈ outstanding frames,
    s.fetchInProgress = some fetch ∧ s.fetches[fetch]? = some none
  single : (FlakeId.outstanding frames).length ≤ 1
  await : ∀ p gen fetch, .await p gen fetch ∈ frames → fetch + 1 = gen
  clear : ∀ p gen fetch, .clear p gen fetch ∈ frames → fetch + 1 = gen ∧
    ∃ result, s.fetches[fetch]? = some (some result)

theorem Asker.missed_eq : a.missed.fetch? = none ∧
    (∀ p gen fetch, a.missed ≠ .await p gen fetch) ∧
    ∀ p gen fetch, a.missed ≠ .clear p gen fetch := by
  cases a <;> simp [missed, fetch?]

theorem Asker.got_eq : (a.got value).fetch? = none ∧
    (∀ p gen fetch, a.got value ≠ .await p gen fetch) ∧
    ∀ p gen fetch, a.got value ≠ .clear p gen fetch := by
  unfold got
  split
  · exact a.missed_eq
  · simp [fetch?]

namespace Single

variable {cfg : AutoBatcher} {s s' : State} {choice : Choice} {f : Frame}
  {e : Effect State Unit Frame Event} {frames next others : List Frame}

theorem perm (hs : Single s frames) (hperm : frames.Perm frames') : Single s frames' := by
  have hout : (FlakeId.outstanding frames).Perm (FlakeId.outstanding frames') :=
    hperm.filterMap _
  obtain ⟨hgeneration, hprogress, hopen, hsingle, hawait, hclear⟩ := hs
  simp only [hout.mem_iff, hout.length_eq, hperm.mem_iff] at hopen hsingle hawait hclear
  exact ⟨hgeneration, hprogress, hopen, hsingle, hawait, hclear⟩

theorem outstanding_cons (f : Frame) (others : List Frame) :
    FlakeId.outstanding (f :: others) = f.fetch?.toList ++ FlakeId.outstanding others :=
  filterMap_cons_eq _ _ _

section

variable (hs : Single s (f :: others))

include hs

theorem same (hfetches : s'.fetches = s.fetches)
    (hprogress : s'.fetchInProgress = s.fetchInProgress)
    (hgeneration : s'.fetchGeneration = s.fetchGeneration)
    (hnext : FlakeId.outstanding next = f.fetch?.toList)
    (hawait : ∀ p gen fetch, .await p gen fetch ∈ next → fetch + 1 = gen)
    (hclear : ∀ p gen fetch, .clear p gen fetch ∈ next → fetch + 1 = gen ∧
      ∃ result, s.fetches[fetch]? = some (some result)) :
    Single s' (next ++ others) := by
  have hout : FlakeId.outstanding (next ++ others) = FlakeId.outstanding (f :: others) := by
    rw [outstanding_cons, ← hnext, FlakeId.outstanding, filterMap_append]
    rfl
  refine ⟨?_, ?_, ?_, ?_, fun p gen fetch hmem => ?_, fun p gen fetch hmem => ?_⟩
  · rw [hfetches, hgeneration]
    exact hs.generation
  · rw [hprogress, hgeneration]
    exact hs.inProgress
  · rw [hout, hprogress, hfetches]
    exact hs.outstanding
  · rw [hout]
    exact hs.single
  · rcases mem_append.mp hmem with hnew | hold
    · exact hawait p gen fetch hnew
    · exact hs.await p gen fetch (mem_cons_of_mem f hold)
  · rw [hfetches]
    rcases mem_append.mp hmem with hnew | hold
    · exact hclear p gen fetch hnew
    · exact hs.clear p gen fetch (mem_cons_of_mem f hold)

theorem asked {g : Frame} (hf : f.fetch? = none) (hfetches : s'.fetches = s.fetches)
    (hprogress : s'.fetchInProgress = s.fetchInProgress)
    (hgeneration : s'.fetchGeneration = s.fetchGeneration)
    (hg : g.fetch? = none ∧
      (∀ p gen fetch, g ≠ .await p gen fetch) ∧ ∀ p gen fetch, g ≠ .clear p gen fetch) :
    Single s' ([g] ++ [] ++ others) := by
  obtain ⟨hfetch, hawait, hclear⟩ := hg
  refine hs.same hfetches hprogress hgeneration ?_ (fun p gen fetch hmem => ?_)
    fun p gen fetch hmem => ?_
  · rw [hf, append_nil, FlakeId.outstanding]
    simp [hfetch]
  · exact absurd (mem_singleton.mp hmem).symm (hawait p gen fetch)
  · exact absurd (mem_singleton.mp hmem).symm (hclear p gen fetch)

theorem ended {fetch : ℕ} {result : Except ℤ ℕ} (hf : f.fetch? = some fetch) :
    Single { s with fetches := s.fetches.set fetch (some result) } others := by
  have hnone : FlakeId.outstanding others = [] := by
    have hlen := hs.single
    rw [outstanding_cons, hf] at hlen
    simpa using hlen
  refine ⟨?_, hs.inProgress, fun fetch' hfetch' => ?_, ?_, fun p gen fetch' hmem => ?_,
    fun p gen fetch' hmem => ?_⟩
  · rw [length_set]
    exact hs.generation
  · rw [hnone] at hfetch'
    cases hfetch'
  · rw [hnone]
    exact Nat.zero_le _
  · exact hs.await p gen fetch' (mem_cons_of_mem f hmem)
  · obtain ⟨hgen, result', hover⟩ := hs.clear p gen fetch' (mem_cons_of_mem f hmem)
    refine ⟨hgen, ?_⟩
    by_cases hsame : fetch = fetch'
    · rw [hsame]
      exact ⟨result, List.getElem?_set_self (List.getElem?_eq_some_iff.mp hover).1⟩
    · exact ⟨result', by rw [List.getElem?_set_ne hsame, hover]⟩

end

theorem elected {p : ℕ} (hs : Single s (.elect p :: others)) (hnone : s.fetchInProgress = none) :
    Single
      { s with
        locked := false
        fetchGeneration := s.fetchGeneration + 1
        fetchInProgress := some s.fetches.length
        fetches := s.fetches ++ [none] }
      (.await p (s.fetchGeneration + 1) s.fetches.length :: .supply s.fetches.length ::
        others) := by
  have hempty : FlakeId.outstanding others = [] := by
    refine eq_nil_iff_forall_not_mem.mpr fun fetch hfetch => ?_
    have hprogress := (hs.outstanding fetch (by rwa [outstanding_cons])).1
    rw [hnone] at hprogress
    cases hprogress
  have hout : FlakeId.outstanding (.await p (s.fetchGeneration + 1) s.fetches.length ::
      .supply s.fetches.length :: others) = [s.fetches.length] := by
    show s.fetches.length :: FlakeId.outstanding others = _
    rw [hempty]
  refine ⟨?_, fun fetch hfetch => ?_, fun fetch hfetch => ?_, ?_, fun q gen fetch hmem => ?_,
    fun q gen fetch hmem => ?_⟩
  · rw [length_append, hs.generation]
    rfl
  · cases hfetch
    rw [hs.generation]
  · rw [hout, mem_singleton] at hfetch
    rw [hfetch]
    exact ⟨rfl, by simp⟩
  · rw [hout]
    exact le_rfl
  · simp only [mem_cons, await.injEq, reduceCtorEq, false_or] at hmem
    rcases hmem with ⟨-, rfl, rfl⟩ | hmem
    · rw [hs.generation]
    · exact hs.await q gen fetch (mem_cons_of_mem _ hmem)
  · simp only [mem_cons, reduceCtorEq, false_or] at hmem
    obtain ⟨hgen, result, hover⟩ := hs.clear q gen fetch (mem_cons_of_mem _ hmem)
    refine ⟨hgen, result, ?_⟩
    rw [List.getElem?_append_left (List.getElem?_eq_some_iff.mp hover).1, hover]

theorem cleared {p fetch : ℕ} (hs : Single s (.clear p s.fetchGeneration fetch :: others)) :
    Single { s with fetchInProgress := none } (.get p fetch :: others) := by
  obtain ⟨hgen, result, hover⟩ := hs.clear p _ fetch mem_cons_self
  have hempty : FlakeId.outstanding others = [] := by
    refine eq_nil_iff_forall_not_mem.mpr fun fetch' hfetch' => ?_
    obtain ⟨hprogress, hopen⟩ := hs.outstanding fetch' (by rwa [outstanding_cons])
    -- it would be the fetch of the same generation
    have hgen' := hs.inProgress fetch' hprogress
    obtain rfl : fetch' = fetch := by omega
    rw [hover] at hopen
    cases hopen
  have hout : FlakeId.outstanding (.get p fetch :: others) = [] := hempty
  refine ⟨hs.generation, fun fetch' hfetch' => ?_, fun fetch' hfetch' => ?_, ?_,
    fun q gen fetch' hmem => ?_, fun q gen fetch' hmem => ?_⟩
  · cases hfetch'
  · rw [hout] at hfetch'
    cases hfetch'
  · rw [hout]
    exact Nat.zero_le _
  · simp only [mem_cons, reduceCtorEq, false_or] at hmem
    exact hs.await q gen fetch' (mem_cons_of_mem _ hmem)
  · simp only [mem_cons, reduceCtorEq, false_or] at hmem
    exact hs.clear q gen fetch' (mem_cons_of_mem _ hmem)

theorem fire (hs : Single s (f :: others)) (h : cfg.fire s choice f = some e) :
    Single e.shared (e.frames ++ others) := by
  cases fired_of_fire h with
  | elected p hnone => exact hs.elected hnone
  | cleared p fetch => exact hs.cleared
  | completed fetch b | failed fetch code => exact hs.ended rfl
  | joined p hfetch =>
    refine hs.same rfl rfl rfl rfl (fun q gen fetch hmem => ?_) (by simp [spawnedFrames])
    cases mem_singleton.mp hmem
    exact hs.inProgress _ hfetch
  | @ready p gen fetch result hready =>
    refine hs.same rfl rfl rfl rfl (by simp [spawnedFrames]) fun q gen' fetch' hmem => ?_
    cases mem_singleton.mp hmem
    exact ⟨hs.await p gen fetch mem_cons_self, result, hready⟩
  | expired b a | usedUp b a => exact hs.asked rfl rfl rfl rfl a.missed_eq
  | took b a hb => exact hs.asked rfl rfl rfl rfl (a.got_eq _)
  | _ =>
    exact hs.same rfl rfl rfl rfl (by simp [spawnedFrames])
      (by simp [spawnedFrames])

end Single

/-! ## Runs -/

/-- Every promise is waited for or completed, once; the ids delivered and under way are among
those counted. -/
structure Sound (events : List Event) (s : State) (frames : List Frame) : Prop where
  promises : ∀ p, (waiting frames).count p + (completions events).count p =
    if p < s.promises then 1 else 0
  values : ∀ v, (underWay frames).count v + (delivered events).count v ≤ (taken s.blocks).count v
  bounded : Bounded s frames
  single : Single s frames

namespace Sound

variable {cfg : AutoBatcher} {events : List Event} {s : State} {choice : Choice} {f : Frame}
  {e : Effect State Unit Frame Event} {frames others : List Frame}

theorem perm (h : Sound events s frames) (hperm : frames.Perm frames') :
    Sound events s frames' := by
  obtain ⟨hpromises, hvalues, ⟨hblock, hfetches, hframes, hbound⟩, hsingle⟩ := h
  simp only [waiting, underWay, (hperm.filterMap _).count_eq, hperm.mem_iff]
    at hpromises hvalues hframes
  exact ⟨hpromises, hvalues, ⟨hblock, hfetches, hframes, hbound⟩, hsingle.perm hperm⟩

theorem fire (h : Sound events s (f :: others)) (hfire : cfg.fire s choice f = some e) :
    Sound (events ++ e.event.toList) e.shared (e.frames ++ others) := by
  refine ⟨fun p => ?_, fun v => ?_, h.bounded.fire hfire, h.single.fire hfire⟩
  · obtain ⟨hpassed, hsame⟩ := promise_of_fire hfire
    have hcount := congrArg (count p) hpassed
    have hold := h.promises p
    rw [waiting, filterMap_cons_eq, count_append] at hold
    rw [count_append] at hcount
    rw [hsame, ← hold]
    simp only [waiting, completions, filterMap_append, count_append] at hcount ⊢
    omega
  · have hstep := value_of_fire hfire v
    have hold := h.values v
    rw [underWay, filterMap_cons_eq, count_append] at hold
    simp only [underWay, delivered, filterMap_append, count_append] at hstep hold ⊢
    omega

theorem newId (h : Sound events s frames) :
    Sound events { s with promises := s.promises + 1 } (frames ++ [.newId s.promises]) := by
  have hwaiting : waiting (frames ++ [.newId s.promises]) = waiting frames ++ [s.promises] := by
    rw [waiting, filterMap_append]
    rfl
  have hvalue : underWay (frames ++ [.newId s.promises]) = underWay frames := by
    rw [underWay, filterMap_append]
    exact append_nil _
  have hfetch : outstanding (frames ++ [.newId s.promises]) = outstanding frames := by
    rw [outstanding, filterMap_append]
    exact append_nil _
  refine ⟨fun p => ?_, fun v => ?_, ⟨h.bounded.block, h.bounded.fetches, fun g hg => ?_,
    h.bounded.bound⟩, ⟨h.single.generation, h.single.inProgress, ?_, ?_, fun p gen fetch hmem => ?_,
    fun p gen fetch hmem => ?_⟩⟩
  · have hold := h.promises p
    rw [hwaiting, count_append, count_singleton]
    show _ = if p < s.promises + 1 then 1 else 0
    by_cases hp : p = s.promises
    · simp [hp] at hold ⊢
      omega
    · simp only [beq_iff_eq, Ne.symm hp, if_false, add_zero, hold]
      split <;> split <;> omega
  · rw [hvalue]
    exact h.values v
  · rcases mem_append.mp hg with hold | hnew
    · exact h.bounded.frames g hold
    · rw [mem_singleton.mp hnew]
      trivial
  · rw [hfetch]
    exact h.single.outstanding
  · rw [hfetch]
    exact h.single.single
  · refine h.single.await p gen fetch ?_
    simpa using hmem
  · refine h.single.clear p gen fetch ?_
    simpa using hmem

end Sound

theorem sound_of_run {cfg : AutoBatcher} {events : List Event} {c : Config State Unit Frame}
    (hrun : Run cfg.machine Always ⟨{}, []⟩ events c) : Sound events c.shared c.frames := by
  refine hrun.frameInvariant (P := Sound) (fun hperm h => h.perm hperm) ?_ ?_ ?_
  · refine ⟨fun p => rfl, fun v => le_rfl, ⟨?_, ?_, ?_, ?_⟩,
      ⟨rfl, ?_, ?_, Nat.zero_le _, ?_, ?_⟩⟩ <;> simp [Config.frames, outstanding]
  · intro es c₁ f choice others threads e _ _ h _ hfire
    exact h.fire hfire
  · intro es c₁ choice e _ h _ hout
    cases choice with
    | newId =>
      cases hout
      rw [toList_none, append_nil]
      exact h.newId
    | _ => cases hout

theorem taken_sublist (hbound : ∀ block ∈ blocks, block.numReturned ≤ block.batch.batchSize.toNat) :
    (taken blocks).Sublist (blocks.flatMap fun block => block.batch.ids) := by
  induction blocks with
  | nil => exact List.Sublist.refl _
  | cons block blocks ih =>
    have hrange : (range block.numReturned).Sublist
        (range block.batch.batchSize.toNat) :=
      range_sublist.mpr (hbound block mem_cons_self)
    exact (hrange.map _).append (ih fun b hb => hbound b (mem_cons_of_mem _ hb))

/-- When the ids of each batch are distinct and batches have no id in common, all ids that
futures are completed with are distinct. They are ids of batches that have been fetched, at
most one fetch is under way, and no future is completed twice. -/
theorem ids_handed_out_once {cfg : AutoBatcher} {events : List Event}
    {c : Config State Unit Frame} (hrun : Run cfg.machine Always ⟨{}, []⟩ events c) :
    ((∀ block ∈ c.shared.blocks, block.batch.ids.Nodup) →
      (c.shared.blocks.Pairwise fun block block' => block.batch.ids.Disjoint block'.batch.ids) →
      (delivered events).Nodup) ∧
    (∀ v ∈ delivered events, ∃ block ∈ c.shared.blocks, v ∈ block.batch.ids) ∧
    (outstanding c.frames).length ≤ 1 ∧ ∀ p, (completions events).count p ≤ 1 := by
  have h := sound_of_run hrun
  have hsub := taken_sublist h.bounded.bound
  refine ⟨fun hwithin hacross => ?_, fun v hv => ?_, h.single.single, fun p => ?_⟩
  · have hnodup : (taken c.shared.blocks).Nodup :=
      (nodup_flatMap.mpr ⟨hwithin, hacross⟩).sublist hsub
    refine nodup_iff_count_le_one.mpr fun v => ?_
    have hle := h.values v
    have hone := nodup_iff_count_le_one.mp hnodup v
    omega
  · have hle := h.values v
    have hpos := count_pos_iff.mpr hv
    have hmem : v ∈ taken c.shared.blocks := count_pos_iff.mp (by omega)
    obtain ⟨block, hblock, hid⟩ := mem_flatMap.mp (hsub.subset hmem)
    exact ⟨block, hblock, hid⟩
  · have heq := h.promises p
    split at heq <;> omega

def twoCalls (batch : IdBatch) : List (Pick Choice) :=
  [.outside .newId, .thread 0 .go, .thread 0 .go, .thread 0 .go, .thread 0 .go, .thread 0 .go,
    .thread 1 .go, .thread 1 (.batch batch 0), .thread 1 (.time 0), .thread 1 .go, .thread 1 .go,
    .thread 0 .go, .thread 0 .go, .thread 0 .go, .thread 0 (.time 0), .thread 0 .go, .thread 0 .go,
    .thread 0 .go,
    .outside .newId, .thread 2 .go, .thread 2 (.time 0), .thread 2 .go, .thread 2 .go,
    .thread 2 .go]

theorem ids_handed_out_once_two_calls :
    ∃ events c, Run (machine ⟨100, 0⟩) Always ⟨{}, []⟩ events c ∧
      delivered events = [5, 6] ∧ (delivered events).Nodup := by
  have hexec : ∃ events c, (machine ⟨100, 0⟩).execAll (fun _ _ => true) ⟨{}, []⟩
      (twoCalls ⟨5, 1, 2⟩) = some (events, c) ∧ delivered events = [5, 6] ∧
      c.shared.blocks = [⟨⟨5, 1, 2⟩, none, 2⟩] := ⟨_, _, rfl, rfl, rfl⟩
  obtain ⟨events, c, hexec, hdelivered, hblocks⟩ := hexec
  have hrun := (Run.of_execAll hexec).always
  refine ⟨events, c, hrun, hdelivered, (ids_handed_out_once hrun).1 ?_ ?_⟩
  · rw [hblocks]
    decide
  · rw [hblocks]
    exact pairwise_singleton _ _

/-- The ids of the batch are the same, and both calls get this id. -/
theorem id_handed_out_twice :
    ∃ events c, Run (machine ⟨100, 0⟩) Always ⟨{}, []⟩ events c ∧
      (c.shared.blocks.Pairwise fun block block' =>
        block.batch.ids.Disjoint block'.batch.ids) ∧
      ¬ (delivered events).Nodup := by
  have hexec : ∃ events c, (machine ⟨100, 0⟩).execAll (fun _ _ => true) ⟨{}, []⟩
      (twoCalls ⟨5, 0, 2⟩) = some (events, c) ∧ delivered events = [5, 5] ∧
      c.shared.blocks = [⟨⟨5, 0, 2⟩, none, 2⟩] := ⟨_, _, rfl, rfl, rfl⟩
  obtain ⟨events, c, hexec, hdelivered, hblocks⟩ := hexec
  refine ⟨events, c, (Run.of_execAll hexec).always, ?_, ?_⟩
  · rw [hblocks]
    exact pairwise_singleton _ _
  · rw [hdelivered]
    decide

end HazelcastClient.FlakeId
