import HazelcastClient.NearCache.Coherence

/-!
# Own writes of a near cached map

A write of `NearCachedClientMapProxy` sends its request and invalidates the near cache; it
does not wait for the response. A member applies the request at some moment before the
future completes, and the invalidation event of the change may come much later. A get
that marks its key after the invalidation of a write and reads it before the write is
applied stores the old value, and no mark tells it so.

`held key` is everything the members have held for the key, so the change with number `m`
is at place `m` of it. A get carries the changes of the writes that were complete when it
started.
-/

namespace HazelcastClient.NearCache.OwnWrites

open Interleaving List Option Function Cache

inductive Operation where
  | put
  | tryPut
  | tryPutTransient
  | putIfAbsent
  | set
  | replace
  | replaceIfSame
  | remove
  | removeIfSame
  | tryRemove
  | delete
  | evict
  deriving DecidableEq

/-- `remove_internal` of a key invalidates before it sends its request; all others, also
`remove_internal` of a key and a value, do it afterwards. -/
def Operation.invalidatesFirst : Operation → Bool
  | .remove => true
  | _ => false

/-- What has become of a write: whether its invalidation is past, the change by which a
member has applied it, and whether its future has completed. -/
structure Write where
  invalidated : Bool := false
  applied : Option ℕ := none
  responded : Bool := false
  deriving DecidableEq

/-- A read that has seen so many changes has seen the write. -/
def Write.seenBy (write : Write) (version : ℕ) : Bool :=
  write.applied.any fun change => decide (change ≤ version)

structure State (K V : Type) (n : ℕ) where
  cache : Cache K V n
  writes : K → List Write := fun _ => []
  held : K → List (Option V)

/-- The places of a write. After a request that cannot be sent the near cache is invalidated
in the `catch` clause. -/
inductive Writing where
  | invalidatingFirst (pc : Invalidate)
  | send
  | invalidating (pc : Invalidate)
  | catching (pc : Invalidate)
  | returning
  deriving DecidableEq

inductive Request where
  | apply
  | respond
  deriving DecidableEq

inductive Frame (K V : Type) where
  | get (key : K) (done : List ℕ) (pc : Get V)
  | invalidate (key : K) (pc : Invalidate)
  | write (op : Operation) (key : K) (w : ℕ) (pc : Writing)
  | request (key : K) (w : ℕ) (pc : Request)
  deriving DecidableEq

/-- `refused` stands for an exception when a request is sent, `failed` for one in the future
of a get. -/
inductive Choice (K V : Type) where
  | go
  | expired
  | full
  | refused
  | failed
  | apply (value : Option V)
  | get (key : K)
  | write (op : Operation) (key : K)
  | change (key : K) (value : Option V)
  | invalidate (key : K)
  | evict (key : K)

def Choice.cache {K V : Type} : Choice K V → NearCache.Choice K V
  | .expired => .expired
  | .full => .full
  | _ => .go

/-- A get has started; it has a value for its caller; a write has returned its future; the
future has completed. -/
inductive Event (K V : Type) where
  | started (key : K)
  | got (key : K) (done : List ℕ) (value : Option V)
  | wrote (key : K) (w : ℕ)
  | completed (key : K) (w : ℕ)
  deriving DecidableEq

abbrev Effect (K V : Type) (n : ℕ) :=
  Interleaving.Effect (State K V n) Unit (Frame K V) (Event K V)

namespace State

variable {K V : Type} {n : ℕ}

def withCache (s : State K V n) (cache : Cache K V n) : State K V n := { s with cache := cache }

def done (s : State K V n) (key : K) : List ℕ :=
  (s.writes key).filterMap fun write => if write.responded then write.applied else none

variable [DecidableEq K]

def issue (s : State K V n) (key : K) : State K V n :=
  { s with writes := Function.update s.writes key (s.writes key ++ [{}]) }

def modifyWrite (s : State K V n) (key : K) (w : ℕ) (f : Write → Write) : State K V n :=
  { s with writes := Function.update s.writes key ((s.writes key).modify w f) }

def invalidated (s : State K V n) (key : K) (w : ℕ) : State K V n :=
  (s.withCache (s.cache.removeRecord key)).modifyWrite key w
    fun write => { write with invalidated := true }

def change (s : State K V n) (key : K) (value : Option V) : State K V n :=
  { s with
    cache := s.cache.change key value
    held := Function.update s.held key (s.held key ++ [value]) }

def apply (s : State K V n) (key : K) (w : ℕ) (value : Option V) : State K V n :=
  (s.change key value).modifyWrite key w
    fun write => { write with applied := some (s.cache.changes key + 1) }

def complete (s : State K V n) (key : K) (w : ℕ) : State K V n :=
  s.modifyWrite key w fun write => { write with responded := true }

end State

section Steps

variable {K V : Type} {n : ℕ} [DecidableEq K]

def Frame.ofGet (done : List ℕ) : NearCache.Frame K V → Frame K V
  | .get key pc => .get key done pc
  | .invalidate key _ pc => .invalidate key pc

/-- The value that a step of `get_internal` has for its caller. -/
def returned (s : Cache K V n) (choice : NearCache.Choice K V) (key : K) :
    Get V → Option (Option V)
  | .lookup =>
    match s.store key, choice with
    | some _, .expired => none
    | some record, _ => some record.value
    | none, _ => none
  | .remoteRead _ => some (s.server key)
  | _ => none

/-- One step of `get_internal`. A read that cannot be sent resets the mark; one that fails
later leaves it. -/
def fireGet (markers : Markers K n) (s : State K V n) (choice : Choice K V) (key : K)
    (done : List ℕ) (pc : Get V) : Option (Effect K V n) :=
  match pc, choice with
  | .remoteRead _, .refused => some { shared := s, next := [.get key done .tryUnmark] }
  | .remoteRead _, .failed => some { shared := s }
  | pc, choice =>
    (NearCache.fireGet markers s.cache choice.cache key pc).map fun e => {
      shared := s.withCache e.shared
      next := e.next.map (Frame.ofGet done)
      event := (returned s.cache choice.cache key pc).map (Event.got key done) }

def fireWrite (markers : Markers K n) (s : State K V n) (choice : Choice K V) (op : Operation)
    (key : K) (w : ℕ) : Writing → Effect K V n
  | .invalidatingFirst .tryRemove =>
    { shared := s.withCache (s.cache.tryRemove markers key).1
      next := [.write op key w (.invalidatingFirst .remove)] }
  | .invalidatingFirst .remove =>
    { shared := s.invalidated key w, next := [.write op key w .send] }
  | .send =>
    match choice with
    | .refused => { shared := s, next := [.write op key w (.catching .tryRemove)] }
    | _ =>
      { shared := s
        next := [.write op key w
          (if op.invalidatesFirst then .returning else .invalidating .tryRemove)]
        spawned := [⟨(), [.request key w .apply]⟩] }
  | .invalidating .tryRemove =>
    { shared := s.withCache (s.cache.tryRemove markers key).1
      next := [.write op key w (.invalidating .remove)] }
  | .invalidating .remove =>
    { shared := s.invalidated key w, next := [.write op key w .returning] }
  | .catching .tryRemove =>
    { shared := s.withCache (s.cache.tryRemove markers key).1
      next := [.write op key w (.catching .remove)] }
  | .catching .remove => { shared := s.withCache (s.cache.removeRecord key) }
  | .returning => { shared := s, event := some (.wrote key w) }

/-- One step of a request. A member applies it once. -/
def fireRequest (s : State K V n) (choice : Choice K V) (key : K) (w : ℕ) :
    Request → Option (Effect K V n)
  | .apply =>
    match choice with
    | .apply value =>
      if ((s.writes key)[w]?.bind Write.applied) = none then
        some { shared := s.apply key w value, next := [.request key w .respond] }
      else none
    | _ => none
  | .respond => some { shared := s.complete key w, event := some (.completed key w) }

def fire (markers : Markers K n) (s : State K V n) (choice : Choice K V) :
    Frame K V → Option (Effect K V n)
  | .get key done pc => fireGet markers s choice key done pc
  | .invalidate key .tryRemove =>
    some {
      shared := s.withCache (s.cache.tryRemove markers key).1
      next := [.invalidate key .remove] }
  | .invalidate key .remove => some { shared := s.withCache (s.cache.removeRecord key) }
  | .write op key w pc => some (fireWrite markers s choice op key w pc)
  | .request key w pc => fireRequest s choice key w pc

/-- One step of the environment: a caller, another client, the listener of invalidations,
or an eviction. -/
def outside (s : State K V n) : Choice K V → Option (Effect K V n)
  | .get key =>
    some {
      shared := s
      spawned := [⟨(), [.get key (s.done key) .lookup]⟩]
      event := some (.started key) }
  | .write op key =>
    some {
      shared := s.issue key
      spawned := [⟨(), [.write op key (s.writes key).length
        (if op.invalidatesFirst then .invalidatingFirst .tryRemove else .send)]⟩] }
  | .change key value => some { shared := s.change key value }
  | .invalidate key => some { shared := s, spawned := [⟨(), [.invalidate key .tryRemove]⟩] }
  | .evict key => some { shared := s.withCache (s.cache.removeRecord key) }
  | _ => none

def machine (markers : Markers K n) :
    Machine (State K V n) Unit (Frame K V) (Choice K V) (Event K V) where
  fire := fun s _ choice f => fire markers s choice f
  outside := outside

abbrev Config (K V : Type) (n : ℕ) := Interleaving.Config (State K V n) Unit (Frame K V)

abbrev Move (K V : Type) := Interleaving.Move (Frame K V) (Choice K V)

def start (n : ℕ) (server : K → Option V) : Config K V n :=
  ⟨{ cache := { server := server }, held := fun key => [server key] }, []⟩

end Steps

/-! ## The condition -/

section Condition

variable {K V : Type} {n : ℕ}

/-- A get starts when every write of its key with a completed future has invalidated the
near cache, and it stores what it has read only if the read has seen every write of the key
that has invalidated the near cache. -/
def Seen (c : Config K V n) : Move K V → Prop
  | .outside (.get key) =>
    ∀ write ∈ c.shared.writes key, write.responded = true → write.invalidated = true
  | .frame (.get _ _ (.put _)) .full => True
  | .frame (.get key _ (.put record)) _ =>
    ∀ write ∈ c.shared.writes key, write.invalidated = true →
      write.seenBy record.version = true
  | _ => True

theorem seen_put_iff {c : Config K V n} {key : K} {done : List ℕ} {record : Record V}
    {choice : Choice K V} (hchoice : choice ≠ .full) :
    Seen c (.frame (.get key done (.put record)) choice) ↔
      ∀ write ∈ c.shared.writes key, write.invalidated = true →
        write.seenBy record.version = true := by
  cases choice with
  | full => exact absurd rfl hchoice
  | _ => exact Iff.rfl

theorem Write.seenBy_iff {write : Write} {version : ℕ} :
    write.seenBy version = true ↔ ∃ change, write.applied = some change ∧ change ≤ version := by
  cases happlied : write.applied with
  | none | some change => simp [Write.seenBy, happlied]

end Condition

/-! ## Writes -/

section Writes

variable {K V : Type} {n : ℕ} [DecidableEq K] {s : State K V n} {key key' : K} {w : ℕ}
  {f : Write → Write} {write : Write}

theorem getElem?_modifyWrite (s : State K V n) (key key' : K) (w i : ℕ) (f : Write → Write) :
    ((s.modifyWrite key w f).writes key')[i]? =
      (s.writes key')[i]?.map fun write => if key' = key ∧ w = i then f write else write := by
  by_cases hkey : key' = key
  · subst hkey
    simp [State.modifyWrite, List.getElem?_modify]
  · simp [State.modifyWrite, hkey]

theorem mem_modifyWrite (h : write ∈ (s.modifyWrite key w f).writes key') :
    write ∈ s.writes key' ∨
      key' = key ∧ ∃ old, (s.writes key)[w]? = some old ∧ write = f old := by
  obtain ⟨i, hi⟩ := mem_iff_getElem?.mp h
  rw [getElem?_modifyWrite] at hi
  obtain ⟨old, hold, rfl⟩ := map_eq_some_iff.mp hi
  split_ifs with hsame
  · obtain ⟨rfl, rfl⟩ := hsame
    exact .inr ⟨rfl, old, hold, rfl⟩
  · exact .inl (mem_of_getElem? hold)

theorem modifyWrite_mem (key : K) (w : ℕ) (f : Write → Write) (h : write ∈ s.writes key') :
    write ∈ (s.modifyWrite key w f).writes key' ∨
      key' = key ∧ (s.writes key)[w]? = some write ∧
        f write ∈ (s.modifyWrite key w f).writes key' := by
  obtain ⟨i, hi⟩ := mem_iff_getElem?.mp h
  have hmodify := getElem?_modifyWrite s key key' w i f
  rw [hi, map_some] at hmodify
  split_ifs at hmodify with hsame
  · obtain ⟨rfl, rfl⟩ := hsame
    exact .inr ⟨rfl, hi, mem_of_getElem? hmodify⟩
  · exact .inl (mem_of_getElem? hmodify)

end Writes

/-! ## The invariant -/

/-- Nothing that was held or has happened to a write is undone. -/
structure Extends {K V : Type} {n : ℕ} (s s' : State K V n) : Prop where
  held : ∀ key, s.held key <+: s'.held key
  writes : ∀ key, ∀ write ∈ s.writes key, ∃ write' ∈ s'.writes key,
    (write.invalidated = true → write'.invalidated = true) ∧
      ∀ change, write.applied = some change → write'.applied = some change

/-- A stored record is something the members have held, and it has seen every write that has
invalidated the near cache. -/
structure Settled {K V : Type} {n : ℕ} (s : State K V n) : Prop where
  length : ∀ key, (s.held key).length = s.cache.changes key + 1
  server : ∀ key, (s.held key)[s.cache.changes key]? = some (s.cache.server key)
  applied : ∀ key, ∀ write ∈ s.writes key, ∀ change, write.applied = some change →
    change ≤ s.cache.changes key
  stored : ∀ key record, s.cache.store key = some record →
    (s.held key)[record.version]? = some record.value ∧
      ∀ write ∈ s.writes key, write.invalidated = true → write.seenBy record.version = true

/-- What a get holds: its complete writes are past their invalidation, and the value that it is
going to store was held. -/
def Backed {K V : Type} {n : ℕ} (s : State K V n) : Frame K V → Prop
  | .get key done pc =>
    (∀ change ∈ done, ∃ write ∈ s.writes key,
      write.invalidated = true ∧ write.applied = some change) ∧
    ∀ record, pc = .put record → (s.held key)[record.version]? = some record.value
  | _ => True

/-- The value was held after the writes that were complete when its get started. -/
def ReadsOwn {K V : Type} {n : ℕ} (s : State K V n) : Event K V → Prop
  | .got key done value => ∀ change ∈ done, value ∈ (s.held key).drop change
  | _ => True

theorem getElem?_of_isPrefix {α : Type} {l l' : List α} (h : l <+: l') {i : ℕ} {a : α}
    (ha : l[i]? = some a) : l'[i]? = some a := by
  obtain ⟨t, rfl⟩ := h
  rw [List.getElem?_append_left (List.getElem?_eq_some_iff.mp ha).1, ha]

namespace Extends

variable {K V : Type} {n : ℕ} {s s' : State K V n}

theorem refl (s : State K V n) : Extends s s where
  held := fun _ => prefix_rfl
  writes := fun _ write hwrite => ⟨write, hwrite, fun h => h, fun _ h => h⟩

theorem trans {s'' : State K V n} (h : Extends s s') (h' : Extends s' s'') : Extends s s'' where
  held := fun key => (h.held key).trans (h'.held key)
  writes := by
    intro key write hwrite
    obtain ⟨write', hwrite', hinvalidated, happlied⟩ := h.writes key write hwrite
    obtain ⟨write'', hwrite'', hinvalidated', happlied'⟩ := h'.writes key write' hwrite'
    exact ⟨write'', hwrite'', fun hi => hinvalidated' (hinvalidated hi),
      fun change hc => happlied' change (happlied change hc)⟩

theorem withCache (s : State K V n) (cache : Cache K V n) : Extends s (s.withCache cache) :=
  ⟨(refl s).held, (refl s).writes⟩

theorem backed (h : Extends s s') {f : Frame K V} (hf : Backed s f) : Backed s' f := by
  cases f with
  | get key done pc =>
    refine ⟨fun change hchange => ?_, fun record hpc => ?_⟩
    · obtain ⟨write, hwrite, hinvalidated, happlied⟩ := hf.1 change hchange
      obtain ⟨write', hwrite', hkeep, hsame⟩ := h.writes key write hwrite
      exact ⟨write', hwrite', hkeep hinvalidated, hsame change happlied⟩
    · exact getElem?_of_isPrefix (h.held key) (hf.2 record hpc)
  | invalidate key pc | write op key w pc | request key w pc => trivial

theorem readsOwn (h : Extends s s') {ev : Event K V} (hev : ReadsOwn s ev) : ReadsOwn s' ev := by
  cases ev with
  | got key done value =>
    intro change hchange
    obtain ⟨later, hlater⟩ := h.held key
    rw [← hlater, drop_append]
    exact mem_append_left _ (hev change hchange)
  | started key | wrote key w | completed key w => trivial

variable [DecidableEq K]

theorem issue (s : State K V n) (key : K) : Extends s (s.issue key) where
  held := fun _ => prefix_rfl
  writes := by
    intro key' write hwrite
    refine ⟨write, ?_, fun h => h, fun _ h => h⟩
    by_cases hkey : key' = key
    · subst hkey
      simp only [State.issue, update_self]
      exact mem_append_left _ hwrite
    · simpa only [State.issue, update_of_ne hkey] using hwrite

theorem change (s : State K V n) (key : K) (value : Option V) :
    Extends s (s.change key value) where
  held := by
    intro key'
    by_cases hkey : key' = key
    · subst hkey
      simp only [State.change, update_self]
      exact prefix_append _ _
    · simp only [State.change, update_of_ne hkey]
      exact prefix_rfl
  writes := (refl s).writes

theorem modifyWrite (s : State K V n) (key : K) (w : ℕ) {f : Write → Write}
    (hinvalidated : ∀ write, write.invalidated = true → (f write).invalidated = true)
    (happlied : ∀ write, (s.writes key)[w]? = some write → ∀ change,
      write.applied = some change → (f write).applied = some change) :
    Extends s (s.modifyWrite key w f) where
  held := fun _ => prefix_rfl
  writes := by
    intro key' write hwrite
    rcases modifyWrite_mem key w f hwrite with hsame | ⟨rfl, hw, hmodified⟩
    · exact ⟨write, hsame, fun h => h, fun _ h => h⟩
    · exact ⟨f write, hmodified, hinvalidated write, happlied write hw⟩

theorem invalidated (s : State K V n) (key : K) (w : ℕ) : Extends s (s.invalidated key w) :=
  (withCache s _).trans (modifyWrite _ key w (fun _ _ => rfl) fun _ _ _ h => h)

theorem complete (s : State K V n) (key : K) (w : ℕ) : Extends s (s.complete key w) :=
  modifyWrite s key w (fun _ h => h) fun _ _ _ h => h

theorem apply (s : State K V n) (key : K) (w : ℕ) (value : Option V)
    (hw : (s.writes key)[w]?.bind Write.applied = none) : Extends s (s.apply key w value) := by
  refine (change s key value).trans (modifyWrite _ key w (fun _ h => h) ?_)
  intro write hwrite number hnumber
  have hget : (s.writes key)[w]? = some write := hwrite
  rw [hget, bind_some, hnumber] at hw
  cases hw

end Extends

open Extends (withCache)

namespace Settled

variable {K V : Type} {n : ℕ} {s : State K V n}

theorem initial [DecidableEq K] (n : ℕ) (server : K → Option V) :
    Settled (start n server).shared where
  length := fun _ => rfl
  server := fun _ => rfl
  applied := nofun
  stored := nofun

/-- A step on the cache may remove records, and put one that meets what is asked of it. -/
theorem withCache (h : Settled s) {cache : Cache K V n} (hserver : cache.server = s.cache.server)
    (hchanges : cache.changes = s.cache.changes)
    (hstore : ∀ key record, cache.store key = some record →
      s.cache.store key = some record ∨ (s.held key)[record.version]? = some record.value ∧
        ∀ write ∈ s.writes key, write.invalidated = true →
          write.seenBy record.version = true) :
    Settled (s.withCache cache) where
  length := by
    intro key
    change (s.held key).length = cache.changes key + 1
    rw [hchanges, h.length]
  server := by
    intro key
    change (s.held key)[cache.changes key]? = some (cache.server key)
    rw [hchanges, hserver, h.server]
  applied := by
    intro key write hwrite change hchange
    change _ ≤ cache.changes key
    rw [hchanges]
    exact h.applied key write hwrite change hchange
  stored := by
    intro key record hrecord
    rcases hstore key record hrecord with hold | hnew
    · exact h.stored key record hold
    · exact hnew

variable [DecidableEq K]

section

variable (h : Settled s) (key : K) (w : ℕ) (value : Option V)

include h

theorem removeRecord : Settled (s.withCache (s.cache.removeRecord key)) := by
  refine h.withCache rfl rfl fun key' record hrecord => .inl ?_
  by_cases hkey : key' = key
  · simp [Cache.removeRecord, hkey] at hrecord
  · simpa [Cache.removeRecord, hkey] using hrecord

theorem issue : Settled (s.issue key) := by
  have hmem : ∀ {key' write}, write ∈ (s.issue key).writes key' →
      write ∈ s.writes key' ∨ write = {} := by
    intro key' write hwrite
    by_cases hkey : key' = key
    · subst hkey
      simpa [State.issue] using hwrite
    · exact .inl (by simpa [State.issue, hkey] using hwrite)
  refine ⟨h.length, h.server, fun key' write hwrite change hchange => ?_,
    fun key' record hrecord => ⟨(h.stored key' record hrecord).1, fun write hwrite hinv => ?_⟩⟩
  · rcases hmem hwrite with hold | rfl
    · exact h.applied key' write hold change hchange
    · cases hchange
  · rcases hmem hwrite with hold | rfl
    · exact (h.stored key' record hrecord).2 write hold hinv
    · cases hinv

theorem modifyWrite {key : K} {w : ℕ} {f : Write → Write}
    (happlied : ∀ old, (s.writes key)[w]? = some old → ∀ change, (f old).applied = some change →
      change ≤ s.cache.changes key)
    (hseen : ∀ old record, (s.writes key)[w]? = some old → s.cache.store key = some record →
      (f old).invalidated = true → (f old).seenBy record.version = true) :
    Settled (s.modifyWrite key w f) where
  length := h.length
  server := h.server
  applied := by
    intro key' write hwrite change hchange
    rcases mem_modifyWrite hwrite with hold | ⟨rfl, old, hold, rfl⟩
    · exact h.applied key' write hold change hchange
    · exact happlied old hold change hchange
  stored := by
    intro key' record hrecord
    refine ⟨(h.stored key' record hrecord).1, fun write hwrite hinv => ?_⟩
    rcases mem_modifyWrite hwrite with hold | ⟨rfl, old, hold, rfl⟩
    · exact (h.stored key' record hrecord).2 write hold hinv
    · exact hseen old record hold hrecord hinv

theorem invalidated : Settled (s.invalidated key w) := by
  refine (h.removeRecord key).modifyWrite ?_ ?_
  · intro old hold change hchange
    exact h.applied key old (mem_of_getElem? hold) change hchange
  · intro old record hold hrecord
    simp [State.withCache, Cache.removeRecord] at hrecord

theorem complete : Settled (s.complete key w) := by
  refine h.modifyWrite ?_ ?_
  · intro old hold change hchange
    exact h.applied key old (mem_of_getElem? hold) change hchange
  · intro old record hold hrecord hinv
    exact (h.stored key record hrecord).2 old (mem_of_getElem? hold) hinv

theorem change : Settled (s.change key value) where
  length := by
    intro key'
    by_cases hkey : key' = key
    · subst hkey
      simp [State.change, change, h.length]
    · simp [State.change, Cache.change, hkey, h.length]
  server := by
    intro key'
    by_cases hkey : key' = key
    · subst hkey
      simp [State.change, change, ← h.length]
    · simp [State.change, Cache.change, hkey, h.server]
  applied := by
    intro key' write hwrite number hnumber
    have hle := h.applied key' write hwrite number hnumber
    by_cases hkey : key' = key
    · subst hkey
      simp only [State.change, change, update_self]
      omega
    · simpa [State.change, Cache.change, hkey] using hle
  stored := by
    intro key' record hrecord
    obtain ⟨hheld, hseen⟩ := h.stored key' record hrecord
    exact ⟨getElem?_of_isPrefix ((Extends.change s key value).held key') hheld, hseen⟩

/-- A write that is applied while there is a record of its key has not invalidated yet. -/
theorem apply (hw : (s.writes key)[w]?.bind Write.applied = none) :
    Settled (s.apply key w value) := by
  refine (h.change key value).modifyWrite ?_ ?_
  · intro old hold number hnumber
    cases hnumber
    simp [State.change, Cache.change]
  · intro old record hold hrecord hinv
    have hget : (s.writes key)[w]? = some old := hold
    have hseen := (h.stored key record hrecord).2 old (mem_of_getElem? hget) hinv
    obtain ⟨number, hnumber, -⟩ := Write.seenBy_iff.mp hseen
    rw [hget, bind_some, hnumber] at hw
    cases hw

end

end Settled

/-! ## Steps -/

section Steps

variable {K V : Type} {n : ℕ} {markers : Markers K n} {s : State K V n} {e : Effect K V n}
  {pc : Get V} {value : Option V} {done : List ℕ} {next : List (NearCache.Frame K V)}
  {ev : Option (NearCache.Event K)} {choice : Choice K V} {c : Config K V n} {key : K}

structure Keeps (s : State K V n) (e : Effect K V n) : Prop where
  settled : Settled e.shared
  keeps : Extends s e.shared
  backed : ∀ g ∈ e.next ++ e.spawnedFrames, Backed e.shared g
  readsOwn : ∀ ev ∈ e.event, ReadsOwn e.shared ev

@[simp] theorem tryRemove_server (markers : Markers K n) (s : Cache K V n) (key : K) :
    (s.tryRemove markers key).1.server = s.server := by
  unfold tryRemove casState
  split <;> rfl

theorem Settled.tryRemove (h : Settled s) (markers : Markers K n) (key : K) :
    Settled (s.withCache (s.cache.tryRemove markers key).1) := by
  refine h.withCache (tryRemove_server ..) (tryRemove_changes ..) fun key' record hrecord => ?_
  rw [tryRemove_store] at hrecord
  exact .inl hrecord

def Frame.isGet : Frame K V → Bool
  | .get _ _ _ => true
  | _ => false

def Event.isGot : Event K V → Bool
  | .got _ _ _ => true
  | _ => false

theorem keeps_of (hsettled : Settled e.shared) (hext : Extends s e.shared)
    (hframes : (e.next ++ e.spawnedFrames).all (fun g => !g.isGet) = true)
    (hevent : e.event.all (fun ev => !ev.isGot) = true) : Keeps s e where
  settled := hsettled
  keeps := hext
  backed := by
    intro g hg
    cases g with
    | get key done pc => exact absurd (all_eq_true.mp hframes _ hg) Bool.false_ne_true
    | _ => trivial
  readsOwn := by
    intro ev hev
    rw [mem_def.mp hev] at hevent
    cases ev with
    | got key done value => exact absurd hevent Bool.false_ne_true
    | _ => trivial

theorem returned_cases {s : Cache K V n} {choice : NearCache.Choice K V}
    (h : returned s choice key pc = some value) :
    (∃ record, s.store key = some record ∧ record.value = value) ∨ s.server key = value := by
  revert h
  fun_cases returned s choice key pc <;> rintro ⟨⟩
  · exact .inl ⟨_, ‹_›, rfl⟩
  · exact .inr rfl

/-- A value in the near cache or on the members is recent enough for a get. -/
theorem readsOwn_of_returned (h : Settled s) (hbacked : Backed s (.get key done pc))
    {choice : NearCache.Choice K V} (hvalue : returned s.cache choice key pc = some value) :
    ReadsOwn s (.got key done value) := by
  intro change hchange
  obtain ⟨write, hwrite, hinvalidated, happlied⟩ := hbacked.1 change hchange
  have hdrop : ∀ {version}, change ≤ version → (s.held key)[version]? = some value →
      value ∈ (s.held key).drop change := by
    intro version hle hheld
    refine mem_of_getElem? (i := version - change) ?_
    rw [List.getElem?_drop, Nat.add_sub_cancel' hle, hheld]
  rcases returned_cases hvalue with ⟨record, hrecord, rfl⟩ | rfl
  · obtain ⟨hheld, hseen⟩ := h.stored key record hrecord
    obtain ⟨number, hnumber, hle⟩ := Write.seenBy_iff.mp (hseen write hwrite hinvalidated)
    rw [happlied] at hnumber
    cases hnumber
    exact hdrop hle hheld
  · exact hdrop (h.applied key write hwrite change happlied) (h.server key)

variable [DecidableEq K]

theorem transition_server {s s' : Cache K V n} {f : NearCache.Frame K V}
    (t : Transition markers s f next ev s') : s'.server = s.server := by
  cases t with
  | ownTryRemove key | tryRemove key => exact tryRemove_server markers s key
  | _ => rfl

/-- A get goes on with its key, and it is going to put what it has just read. -/
theorem transition_next {s s' : Cache K V n} (t : Transition markers s (.get key pc) next ev s')
    {g : NearCache.Frame K V} (hg : g ∈ next) :
    ∃ pc', g = .get key pc' ∧
      ∀ record, pc' = .put record → record = ⟨s.server key, s.changes key⟩ := by
  cases t with
  | plain _ _ h =>
    cases h with
    | hit | readOnly => cases hg
    | miss | expired | unmarked | full =>
      cases mem_singleton.mp hg
      exact ⟨_, rfl, nofun⟩
  | read =>
    cases mem_singleton.mp hg
    exact ⟨_, rfl, fun record h => (by cases h; rfl)⟩
  | unmark | forceUnmark => cases hg
  | expire | mark | put | unmarkFailed | ownTryRemove | ownRemove =>
    cases mem_singleton.mp hg
    exact ⟨_, rfl, nofun⟩

theorem shared_of_full {s : Cache K V n} {record : Record V}
    {e : Interleaving.Effect (Cache K V n) Unit (NearCache.Frame K V) (NearCache.Event K)}
    (h : NearCache.fireGet markers s .full key (.put record) = some e) : e.shared = s := by
  cases (ite_none_right_eq_some.mp h).2
  rfl

/-- A get that may store what it has read keeps the invariant. -/
theorem keeps_fireGet (h : Settled s) (hbacked : Backed s (.get key done pc))
    (hseen : ∀ record, pc = .put record → choice ≠ .full → ∀ write ∈ s.writes key,
      write.invalidated = true → write.seenBy record.version = true)
    (hfire : fireGet markers s choice key done pc = some e) : Keeps s e := by
  revert hfire
  fun_cases fireGet markers s choice key done pc
  · rintro ⟨⟩
    refine ⟨h, Extends.refl s, fun g hg => ?_, nofun⟩
    cases mem_singleton.mp hg
    exact ⟨hbacked.1, nofun⟩
  · rintro ⟨⟩
    exact ⟨h, Extends.refl s, nofun, nofun⟩
  · intro hfire
    obtain ⟨e₀, he₀, rfl⟩ := map_eq_some_iff.mp hfire
    obtain ⟨t, -⟩ := Transition.of_fire (f := .get key pc) he₀
    have hext : Extends s (s.withCache e₀.shared) := withCache s e₀.shared
    have hsettled : Settled (s.withCache e₀.shared) := by
      refine h.withCache (transition_server t) t.changes fun key' record hrecord => ?_
      rcases t.store hrecord with hold | ⟨hput, -⟩
      · exact .inl hold
      · cases hput
        by_cases hfull : choice = .full
        · subst hfull
          rw [shared_of_full he₀] at hrecord
          exact .inl hrecord
        · exact .inr ⟨hbacked.2 record rfl, hseen record rfl hfull⟩
    refine ⟨hsettled, hext, fun g hg => ?_, fun ev hev => ?_⟩
    · change g ∈ e₀.next.map (Frame.ofGet done) ++ [] at hg
      rw [append_nil] at hg
      obtain ⟨g₀, hg₀, rfl⟩ := mem_map.mp hg
      obtain ⟨pc', rfl, hput⟩ := transition_next t hg₀
      refine ⟨hbacked.1, fun record hpc => ?_⟩
      rw [hput record hpc]
      exact h.server key
    · obtain ⟨value, hvalue, rfl⟩ := map_eq_some_iff.mp hev
      exact hext.readsOwn (readsOwn_of_returned h hbacked hvalue)

theorem keeps_fireWrite (h : Settled s) (choice : Choice K V) (op : Operation) (key : K) (w : ℕ)
    (pc : Writing) : Keeps s (fireWrite markers s choice op key w pc) := by
  cases pc with
  | invalidatingFirst pc | invalidating pc =>
    cases pc with
    | tryRemove => exact keeps_of (h.tryRemove markers key) (withCache s _) rfl rfl
    | remove => exact keeps_of (h.invalidated key w) (Extends.invalidated s key w) rfl rfl
  | send =>
    cases choice with
    | _ => exact keeps_of h (Extends.refl s) rfl rfl
  | catching pc =>
    cases pc with
    | tryRemove => exact keeps_of (h.tryRemove markers key) (withCache s _) rfl rfl
    | remove => exact keeps_of (h.removeRecord key) (withCache s _) rfl rfl
  | returning => exact keeps_of h (Extends.refl s) rfl rfl

theorem keeps_fireRequest (h : Settled s) {w : ℕ} {pc : Request}
    (hfire : fireRequest s choice key w pc = some e) : Keeps s e := by
  revert hfire
  fun_cases fireRequest s choice key w pc <;> rintro ⟨⟩
  · exact keeps_of (h.apply key w _ ‹_›) (Extends.apply s key w _ ‹_›) rfl rfl
  · exact keeps_of (h.complete key w) (Extends.complete s key w) rfl rfl

theorem keeps_fire (h : Settled c.shared) {f : Frame K V} (hbacked : Backed c.shared f)
    (hseen : Seen c (.frame f choice)) (hfire : fire markers c.shared choice f = some e) :
    Keeps c.shared e := by
  cases f with
  | get key done pc =>
    refine keeps_fireGet h hbacked (fun record hpc hchoice => ?_) hfire
    subst hpc
    exact (seen_put_iff hchoice).mp hseen
  | invalidate key pc =>
    cases pc with
    | tryRemove =>
      cases hfire
      exact keeps_of (h.tryRemove markers key) (withCache _ _) rfl rfl
    | remove =>
      cases hfire
      exact keeps_of (h.removeRecord key) (withCache _ _) rfl rfl
  | write op key w pc =>
    cases hfire
    exact keeps_fireWrite h choice op key w pc
  | request key w pc => exact keeps_fireRequest h hfire

theorem keeps_outside (h : Settled c.shared) (hseen : Seen c (.outside choice))
    (hout : outside c.shared choice = some e) : Keeps c.shared e := by
  revert hout
  fun_cases outside c.shared choice <;> rintro ⟨⟩
  · refine ⟨h, Extends.refl _, fun g hg => ?_, fun ev hev => ?_⟩
    · cases mem_singleton.mp hg
      refine ⟨fun change hchange => ?_, nofun⟩
      obtain ⟨write, hwrite, hchange⟩ := mem_filterMap.mp hchange
      split at hchange
      · rename_i hresponded
        exact ⟨write, hwrite, hseen write hwrite hresponded, hchange⟩
      · cases hchange
    · cases hev
      trivial
  · refine keeps_of (h.issue _) (Extends.issue _ _) ?_ rfl
    rfl
  · exact keeps_of (h.change _ _) (Extends.change _ _ _) rfl rfl
  · exact keeps_of h (Extends.refl _) rfl rfl
  · exact keeps_of (h.removeRecord _) (withCache _ _) rfl rfl

theorem outside_next (h : outside s choice = some e) :
    e.next = [] := by
  revert h
  fun_cases outside s choice <;> rintro ⟨⟩ <;> rfl

end Steps

structure Holds {K V : Type} {n : ℕ} (events : List (Event K V)) (s : State K V n)
    (frames : List (Frame K V)) : Prop where
  settled : Settled s
  backed : ∀ f ∈ frames, Backed s f
  readsOwn : ∀ ev ∈ events, ReadsOwn s ev

theorem Holds.step {K V : Type} {n : ℕ} {events : List (Event K V)} {s : State K V n}
    {others : List (Frame K V)} {e : Effect K V n} (h : Holds events s others)
    (he : Keeps s e) :
    Holds (events ++ e.event.toList) e.shared (e.next ++ e.spawnedFrames ++ others) where
  settled := he.settled
  backed := by
    intro f hf
    rcases mem_append.mp hf with hnew | hold
    · exact he.backed f hnew
    · exact he.keeps.backed (h.backed f hold)
  readsOwn := by
    intro ev hev
    rcases mem_append.mp hev with hold | hnew
    · exact he.keeps.readsOwn (h.readsOwn ev hold)
    · exact he.readsOwn ev (mem_toList.mp hnew)

theorem Holds.perm {K V : Type} {n : ℕ} {events : List (Event K V)} {s : State K V n}
    {frames frames' : List (Frame K V)} (hp : frames.Perm frames') (h : Holds events s frames) :
    Holds events s frames' :=
  ⟨h.settled, fun f hf => h.backed f (hp.mem_iff.mpr hf), h.readsOwn⟩

/-- A get returns nothing that the members held only before a write of the key that was
complete when the get started. -/
theorem gets_read_own_writes {K V : Type} {n : ℕ} [DecidableEq K] {markers : Markers K n}
    {server : K → Option V} {events : List (Event K V)} {c : Config K V n}
    (hrun : Run (machine markers) Seen (start n server) events c) {key : K} {done : List ℕ}
    {value : Option V} (hgot : .got key done value ∈ events) {change : ℕ}
    (hchange : change ∈ done) : value ∈ (c.shared.held key).drop change := by
  have hholds : Holds events c.shared c.frames := by
    refine hrun.frameInvariant (P := Holds) Holds.perm ?_ ?_ ?_
    · exact ⟨Settled.initial n server, nofun, nofun⟩
    · intro es c₁ f choice others threads e _ _ h hseen hfire
      have hothers : Holds es c₁.shared others :=
        ⟨h.settled, fun g hg => h.backed g (mem_cons_of_mem _ hg), h.readsOwn⟩
      exact hothers.step (keeps_fire h.settled (h.backed f mem_cons_self) hseen hfire)
    · intro es c₁ choice e _ h hseen hout
      have hstep := h.step (keeps_outside h.settled hseen hout)
      have hnext : e.next = [] := outside_next hout
      rw [hnext, nil_append] at hstep
      exact hstep.perm perm_append_comm
  exact hholds.readsOwn _ hgot change hchange

/-! ## Runs -/

instance {K V : Type} {n : ℕ} (c : Config K V n) (mv : Move K V) : Decidable (Seen c mv) := by
  unfold Seen
  split <;> infer_instance

def exampleMarkers : Markers Unit 1 := ⟨fun _ => 0, by decide⟩

def completePicks : List (Pick (Choice Unit Bool)) :=
  [.outside (.write .put ()), .thread 0 .go, .thread 0 .go, .thread 0 .go, .thread 0 .go,
    .thread 1 (.apply (some true)), .thread 1 .go,
    .outside (.get ()), .thread 2 .go, .thread 2 .go, .thread 2 .go, .thread 2 .go, .thread 2 .go]

theorem gets_read_own_writes_complete :
    ∃ events, ∃ c : Config Unit Bool 1,
      Run (machine exampleMarkers) Seen (start 1 fun _ => some false) events c ∧
        .got () [1] (some true) ∈ events ∧ some true ∈ (c.shared.held ()).drop 1 := by
  have hexec : ((machine exampleMarkers).execAll (fun c mv => decide (Seen c mv))
      (start 1 fun _ => some false) completePicks).any
        (fun r => decide (.got () [1] (some true) ∈ r.1)) = true := by
    decide +kernel
  obtain ⟨events, c, hrun, htest⟩ := Run.of_execAll_any hexec
  have hseen := hrun.mono fun _ _ h => of_decide_eq_true h
  have hgot := of_decide_eq_true htest
  exact ⟨events, c, hseen, hgot, gets_read_own_writes hseen hgot mem_cons_self⟩

/-- The put has invalidated and returned its future. A get reads the old value, then the put
is applied and its future completes, and the get stores what it has read. The next get finds
it. -/
def stalePicks : List (Pick (Choice Unit Bool)) :=
  [.outside (.write .put ()), .thread 0 .go, .thread 0 .go, .thread 0 .go, .thread 0 .go,
    .outside (.get ()), .thread 2 .go, .thread 2 .go, .thread 2 .go,
    .thread 1 (.apply (some true)), .thread 1 .go, .thread 2 .go, .thread 2 .go,
    .outside (.get ()), .thread 3 .go]

theorem get_misses_own_write :
    ∃ c : Config Unit Bool 1,
      Run (machine exampleMarkers) Always (start 1 fun _ => some false)
        [.wrote () 0, .started (), .got () [] (some false), .completed () 0, .started (),
          .got () [1] (some false)] c ∧
        c.shared.held () = [some false, some true] ∧
        some false ∉ (c.shared.held ()).drop 1 := by
  have hexec : ((machine exampleMarkers).execAll (fun _ _ => true)
      (start 1 fun _ => some false) stalePicks).any
        (fun r => decide (r.1 = [.wrote () 0, .started (), .got () [] (some false),
          .completed () 0, .started (), .got () [1] (some false)]) &&
          decide (r.2.shared.held () = [some false, some true])) = true := by
    decide +kernel
  obtain ⟨events, c, hrun, htest⟩ := Run.of_execAll_any hexec
  obtain ⟨hevents, hheld⟩ := Bool.and_eq_true_iff.mp htest
  cases of_decide_eq_true hevents
  have hheld := of_decide_eq_true hheld
  refine ⟨c, hrun.always, hheld, ?_⟩
  rw [hheld]
  decide

end HazelcastClient.NearCache.OwnWrites
