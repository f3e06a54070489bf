import HazelcastClient.Interleaving.Machine

/-!
# Batches of flake ids

`auto_batcher` hands out the ids of a batch one by one and fetches another batch when the
current one is used up or has expired. As long as there are ids a caller takes one without a
lock: it reads how many are gone and exchanges the number for the next one. A caller that gets
none joins the fetch under way, or starts one, and tries again when the fetch is over.

Every access to `block_`, to the counter of a block and to the clock is a step of its own, as
is every section under the mutex that touches nothing else. The section that looks at the
block once more holds the mutex over several steps. A continuation of the fetch waits until
the fetch is over, and what is posted to the executor runs at any time.
-/

namespace HazelcastClient.FlakeId

open Interleaving

structure IdBatch where
  base : ℤ
  increment : ℤ
  batchSize : ℤ
  deriving DecidableEq

namespace IdBatch

/-- The id with the given index, an `int64_t`. -/
def id (b : IdBatch) (index : ℕ) : ℤ := (b.base + index * b.increment).bmod (2 ^ 64)

def ids (b : IdBatch) : List ℤ := (List.range b.batchSize.toNat).map b.id

end IdBatch

/-- `INT64_MIN`, which stands for no id. -/
def noId : ℤ := -2 ^ 63

/-- Times are counted in nanoseconds; a block that never expires has no time. -/
structure Block where
  batch : IdBatch
  invalidSince : Option ℤ
  numReturned : ℕ := 0
  deriving DecidableEq

namespace Block

/-- A new block; the validity is in milliseconds. -/
def new (batch : IdBatch) (validity now : ℤ) : Block where
  batch := batch
  invalidSince := if validity ≤ 0 then none else some (now + 1000000 * validity)

def isInvalid (b : Block) (now : ℤ) : Bool := b.invalidSince.any fun time => time ≤ now

def usable (b : Block) (now : ℤ) : Bool :=
  !b.isInvalid now && decide ((b.numReturned : ℤ) < b.batch.batchSize)

def taken (b : Block) : List ℤ := (List.range b.numReturned).map b.batch.id

end Block

/-- Who asks a block for its next id: the fast path of `new_id`, `try_get_id` with the block
that it has loaded, the same under the mutex, and the continuation of a fetch. -/
inductive Asker where
  | fast (p : ℕ)
  | slow (p b : ℕ)
  | checked (p : ℕ)
  | fetched (p : ℕ)
  deriving DecidableEq

/-- The places of the callers, which are known by their promises, and of a fetch. Blocks and
fetches have numbers. -/
inductive Frame where
  | newId (p : ℕ)
  | tryGetId (p : ℕ)
  /-- `block::next` -/
  | expiry (b : ℕ) (a : Asker)
  | load (b : ℕ) (a : Asker)
  | exchange (b index : ℕ) (a : Asker)
  | deliver (p : ℕ) (value : ℤ) (holds : Bool)
  /-- the election of the fetcher -/
  | lock (p : ℕ) (seen : Option ℕ)
  | doubleCheck (p : ℕ) (seen : Option ℕ)
  | elect (p : ℕ)
  /-- the continuation of a fetch -/
  | await (p gen fetch : ℕ)
  | clear (p gen fetch : ℕ)
  | get (p fetch : ℕ)
  /-- the loop of a fetch -/
  | supply (fetch : ℕ)
  | response (fetch : ℕ)
  | checkUsable (fetch b : ℕ)
  | store (fetch b : ℕ)
  | complete (fetch b : ℕ)
  deriving DecidableEq

namespace Asker

def promise : Asker → ℕ
  | fast p | slow p _ | checked p | fetched p => p

def missed : Asker → Frame
  | fast p => .tryGetId p
  | slow p b => .lock p (some b)
  | checked p => .elect p
  | fetched p => .tryGetId p

def holdsMutex : Asker → Bool
  | checked _ => true
  | _ => false

def got (a : Asker) (value : ℤ) : Frame :=
  if value = noId then a.missed else .deliver a.promise value a.holdsMutex

end Asker

inductive Choice where
  | time (now : ℤ)
  | batch (batch : IdBatch) (now : ℤ)
  | failed (code : ℤ)
  | go
  | newId

inductive Event where
  | requested (size : ℤ)
  | delivered (p : ℕ) (value : ℤ)
  | failed (p : ℕ) (code : ℤ)
  deriving DecidableEq

structure State where
  blocks : List Block := []
  /-- `block_` -/
  block : Option ℕ := none
  /-- the mutex is held -/
  locked : Bool := false
  fetchInProgress : Option ℕ := none
  fetchGeneration : ℕ := 0
  /-- what the fetches have led to -/
  fetches : List (Option (Except ℤ ℕ)) := []
  promises : ℕ := 0

structure AutoBatcher where
  batchSize : ℤ
  validity : ℤ

namespace AutoBatcher

variable (cfg : AutoBatcher)

/-- The steps of `block::next`. -/
def fireNext (s : State) (choice : Choice) : Frame → Option (Effect State Unit Frame Event)
  | .expiry b a =>
    match s.blocks[b]?, choice with
    | some block, .time now =>
      some { shared := s, next := [if block.isInvalid now then a.missed else .load b a] }
    | _, _ => none
  | .load b a =>
    match s.blocks[b]? with
    | some block =>
      some { shared := s
             next := [if (block.numReturned : ℤ) = block.batch.batchSize then a.missed
               else .exchange b block.numReturned a] }
    | none => none
  | .exchange b index a =>
    match s.blocks[b]? with
    | some block =>
      if block.numReturned = index then
        some { shared := { s with
                 blocks := s.blocks.set b { block with numReturned := index + 1 } }
               next := [a.got (block.batch.id index)] }
      else some { shared := s, next := [.load b a] }
    | none => none
  | _ => none

/-- The steps of `new_id` and `try_get_id`, up to the continuation. -/
def fireCall (s : State) : Frame → Option (Effect State Unit Frame Event)
  | .newId p =>
    some { shared := s, next := [s.block.elim (.tryGetId p) fun b => .expiry b (.fast p)] }
  | .tryGetId p =>
    some { shared := s, next := [s.block.elim (.lock p none) fun b => .expiry b (.slow p b)] }
  | .deliver p value holds =>
    some { shared := if holds then { s with locked := false } else s
           event := some (.delivered p value) }
  | .lock p seen =>
    if s.locked then none
    else some { shared := { s with locked := true }, next := [.doubleCheck p seen] }
  | .doubleCheck p seen =>
    some { shared := s
           next := [match s.block with
             | none => .elect p
             | some b => if some b = seen then .elect p else .expiry b (.checked p)] }
  | .elect p =>
    match s.fetchInProgress with
    | some fetch =>
      some { shared := { s with locked := false }
             next := [.await p s.fetchGeneration fetch] }
    | none =>
      some { shared := { s with
               locked := false
               fetchGeneration := s.fetchGeneration + 1
               fetchInProgress := some s.fetches.length
               fetches := s.fetches ++ [none] }
             next := [.await p (s.fetchGeneration + 1) s.fetches.length]
             spawned := [⟨(), [.supply s.fetches.length]⟩] }
  | _ => none

def fireContinuation (s : State) : Frame → Option (Effect State Unit Frame Event)
  | .await p gen fetch =>
    match s.fetches[fetch]? with
    | some (some _) => some { shared := s, next := [.clear p gen fetch] }
    | _ => none
  | .clear p gen fetch =>
    if s.locked then none
    else some { shared :=
                  if s.fetchGeneration = gen ∧ s.fetchInProgress.isSome then
                    { s with fetchInProgress := none }
                  else s
                next := [.get p fetch] }
  | .get p fetch =>
    match s.fetches[fetch]? with
    | some (some (.ok b)) => some { shared := s, next := [.expiry b (.fetched p)] }
    | some (some (.error code)) => some { shared := s, event := some (.failed p code) }
    | _ => none
  | _ => none

def fireFetch (s : State) (choice : Choice) : Frame → Option (Effect State Unit Frame Event)
  | .supply fetch =>
    some { shared := s, next := [.response fetch], event := some (.requested cfg.batchSize) }
  | .response fetch =>
    match choice with
    | .batch batch now =>
      some { shared := { s with blocks := s.blocks ++ [Block.new batch cfg.validity now] }
             next := [.checkUsable fetch s.blocks.length] }
    | .failed code =>
      some { shared := { s with fetches := s.fetches.set fetch (some (.error code)) } }
    | _ => none
  | .checkUsable fetch b =>
    match s.blocks[b]?, choice with
    | some block, .time now =>
      some { shared := s
             next := [if block.usable now then .store fetch b else .supply fetch] }
    | _, _ => none
  | .store fetch b =>
    some { shared := { s with block := some b }, next := [.complete fetch b] }
  | .complete fetch b =>
    some { shared := { s with fetches := s.fetches.set fetch (some (.ok b)) } }
  | _ => none

def fire (s : State) (choice : Choice) (f : Frame) : Option (Effect State Unit Frame Event) :=
  match f with
  | .expiry _ _ | .load _ _ | .exchange _ _ _ => fireNext s choice f
  | .newId _ | .tryGetId _ | .deliver _ _ _ | .lock _ _ | .doubleCheck _ _ | .elect _ =>
    fireCall s f
  | .await _ _ _ | .clear _ _ _ | .get _ _ => fireContinuation s f
  | .supply _ | .response _ | .checkUsable _ _ | .store _ _ | .complete _ _ =>
    cfg.fireFetch s choice f

/-- Any number of calls of `new_id`. -/
def machine : Machine State Unit Frame Choice Event where
  fire s _ choice f := cfg.fire s choice f
  outside s choice :=
    match choice with
    | .newId =>
      some { shared := { s with promises := s.promises + 1 }
             spawned := [⟨(), [.newId s.promises]⟩] }
    | _ => none

end AutoBatcher

/-! ## The cases of a step -/

inductive Fired (cfg : AutoBatcher) (s : State) : Frame → Effect State Unit Frame Event → Prop
  | fast (p : ℕ) {b : ℕ} (hb : s.block = some b) :
      Fired cfg s (.newId p) { shared := s, next := [.expiry b (.fast p)] }
  | noBlock (p : ℕ) : Fired cfg s (.newId p) { shared := s, next := [.tryGetId p] }
  | slow (p : ℕ) {b : ℕ} (hb : s.block = some b) :
      Fired cfg s (.tryGetId p) { shared := s, next := [.expiry b (.slow p b)] }
  | stillNoBlock (p : ℕ) : Fired cfg s (.tryGetId p) { shared := s, next := [.lock p none] }
  | expired (b : ℕ) (a : Asker) : Fired cfg s (.expiry b a) { shared := s, next := [a.missed] }
  | valid (b : ℕ) (a : Asker) : Fired cfg s (.expiry b a) { shared := s, next := [.load b a] }
  | usedUp (b : ℕ) (a : Asker) : Fired cfg s (.load b a) { shared := s, next := [a.missed] }
  | loaded (b : ℕ) (a : Asker) {block : Block} (hb : s.blocks[b]? = some block)
      (hleft : (block.numReturned : ℤ) ≠ block.batch.batchSize) :
      Fired cfg s (.load b a) { shared := s, next := [.exchange b block.numReturned a] }
  | took (b : ℕ) (a : Asker) {block : Block} (hb : s.blocks[b]? = some block) :
      Fired cfg s (.exchange b block.numReturned a)
        { shared := { s with
            blocks := s.blocks.set b { block with numReturned := block.numReturned + 1 } }
          next := [a.got (block.batch.id block.numReturned)] }
  | lost (b index : ℕ) (a : Asker) :
      Fired cfg s (.exchange b index a) { shared := s, next := [.load b a] }
  | delivered (p : ℕ) (value : ℤ) (holds : Bool) :
      Fired cfg s (.deliver p value holds)
        { shared := { s with locked := !holds && s.locked }, event := some (.delivered p value) }
  | locked (p : ℕ) (seen : Option ℕ) :
      Fired cfg s (.lock p seen)
        { shared := { s with locked := true }, next := [.doubleCheck p seen] }
  | checkAgain (p : ℕ) (seen : Option ℕ) {b : ℕ} (hb : s.block = some b) :
      Fired cfg s (.doubleCheck p seen) { shared := s, next := [.expiry b (.checked p)] }
  | unchanged (p : ℕ) (seen : Option ℕ) :
      Fired cfg s (.doubleCheck p seen) { shared := s, next := [.elect p] }
  | joined (p : ℕ) {fetch : ℕ} (hfetch : s.fetchInProgress = some fetch) :
      Fired cfg s (.elect p)
        { shared := { s with locked := false }, next := [.await p s.fetchGeneration fetch] }
  | elected (p : ℕ) (hnone : s.fetchInProgress = none) :
      Fired cfg s (.elect p)
        { shared := { s with
            locked := false
            fetchGeneration := s.fetchGeneration + 1
            fetchInProgress := some s.fetches.length
            fetches := s.fetches ++ [none] }
          next := [.await p (s.fetchGeneration + 1) s.fetches.length]
          spawned := [⟨(), [.supply s.fetches.length]⟩] }
  | ready (p gen fetch : ℕ) {result : Except ℤ ℕ} (h : s.fetches[fetch]? = some (some result)) :
      Fired cfg s (.await p gen fetch) { shared := s, next := [.clear p gen fetch] }
  | cleared (p fetch : ℕ) :
      Fired cfg s (.clear p s.fetchGeneration fetch)
        { shared := { s with fetchInProgress := none }, next := [.get p fetch] }
  | notCleared (p gen fetch : ℕ) :
      Fired cfg s (.clear p gen fetch) { shared := s, next := [.get p fetch] }
  | fetched (p fetch : ℕ) {b : ℕ} (h : s.fetches[fetch]? = some (some (.ok b))) :
      Fired cfg s (.get p fetch) { shared := s, next := [.expiry b (.fetched p)] }
  | threw (p fetch : ℕ) (code : ℤ) :
      Fired cfg s (.get p fetch) { shared := s, event := some (.failed p code) }
  | requested (fetch : ℕ) :
      Fired cfg s (.supply fetch)
        { shared := s, next := [.response fetch], event := some (.requested cfg.batchSize) }
  | supplied (fetch : ℕ) (batch : IdBatch) (now : ℤ) :
      Fired cfg s (.response fetch)
        { shared := { s with blocks := s.blocks ++ [Block.new batch cfg.validity now] }
          next := [.checkUsable fetch s.blocks.length] }
  | failed (fetch : ℕ) (code : ℤ) :
      Fired cfg s (.response fetch)
        { shared := { s with fetches := s.fetches.set fetch (some (.error code)) } }
  | usable (fetch b : ℕ) {block : Block} (hb : s.blocks[b]? = some block)
      (hleft : (block.numReturned : ℤ) < block.batch.batchSize) :
      Fired cfg s (.checkUsable fetch b) { shared := s, next := [.store fetch b] }
  | unusable (fetch b : ℕ) :
      Fired cfg s (.checkUsable fetch b) { shared := s, next := [.supply fetch] }
  | stored (fetch b : ℕ) :
      Fired cfg s (.store fetch b)
        { shared := { s with block := some b }, next := [.complete fetch b] }
  | completed (fetch b : ℕ) :
      Fired cfg s (.complete fetch b)
        { shared := { s with fetches := s.fetches.set fetch (some (.ok b)) } }

namespace AutoBatcher

variable {cfg : AutoBatcher} {s : State} {choice : Choice} {f : Frame}
  {e : Effect State Unit Frame Event}

theorem fired_of_fireNext (h : fireNext s choice f = some e) : Fired cfg s f e := by
  revert h
  fun_cases fireNext s choice f <;> rintro ⟨⟩
  · split
    · exact .expired _ _
    · exact .valid _ _
  · split
    · exact .usedUp _ _
    · exact .loaded _ _ ‹_› ‹_›
  · exact .took _ _ ‹_›
  · exact .lost _ _ _

theorem fired_of_fireCall (h : fireCall s f = some e) : Fired cfg s f e := by
  revert h
  fun_cases fireCall s f <;> rintro ⟨⟩
  · cases hb : s.block with
    | none => exact .noBlock _
    | some b => exact .fast _ hb
  · cases hb : s.block with
    | none => exact .stillNoBlock _
    | some b => exact .slow _ hb
  · rename_i p value holds
    cases holds with
    | true => exact .delivered p value true
    | false => exact .delivered p value false
  · exact .locked _ _
  · cases hb : s.block with
    | none => exact .unchanged _ _
    | some b =>
      simp only
      split
      · exact .unchanged _ _
      · exact .checkAgain _ _ hb
  · exact .joined _ ‹_›
  · exact .elected _ ‹_›

theorem fired_of_fireContinuation (h : fireContinuation s f = some e) : Fired cfg s f e := by
  revert h
  fun_cases fireContinuation s f <;> rintro ⟨⟩
  · exact .ready _ _ _ ‹_›
  · split
    · rename_i hgen
      obtain ⟨rfl, -⟩ := hgen
      exact .cleared _ _
    · exact .notCleared _ _ _
  · exact .fetched _ _ ‹_›
  · exact .threw _ _ _

theorem fired_of_fireFetch (h : cfg.fireFetch s choice f = some e) : Fired cfg s f e := by
  revert h
  fun_cases fireFetch cfg s choice f <;> rintro ⟨⟩
  · exact .requested _
  · exact .supplied _ _ _
  · exact .failed _ _
  · split
    · rename_i husable
      refine .usable _ _ ‹_› ?_
      simp only [Block.usable, Bool.and_eq_true, decide_eq_true_eq] at husable
      exact husable.2
    · exact .unusable _ _
  · exact .stored _ _
  · exact .completed _ _

theorem fired_of_fire (h : cfg.fire s choice f = some e) : Fired cfg s f e := by
  unfold fire at h
  split at h
  all_goals first
    | exact fired_of_fireNext h
    | exact fired_of_fireCall h
    | exact fired_of_fireContinuation h
    | exact fired_of_fireFetch h

end AutoBatcher

end HazelcastClient.FlakeId
