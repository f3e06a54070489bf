import HazelcastClient.Interleaving.Machine
import Mathlib.Tactic.Ring

/-!
# Listeners of a reliable topic

A `MessageRunner` reads the ring buffer of a topic in batches and hands the messages to its
listener. It is a chain of continuations: each one handles the result of a read, loops over
the items and starts the next read.

Every call of the listener is a step of its own, since the listener can be removed at any
time, also in the middle of a batch. What the calls throw is an `iexception`; reads may fail
when they are started or later.
-/

namespace HazelcastClient.Topic

open Interleaving List

inductive ErrorCode where
  | timeout
  | illegalArgument
  | hazelcastInstanceNotActive
  | distributedObjectDestroyed
  | other (code : ℤ)
  deriving DecidableEq

structure ReadResultSet (M : Type) where
  readCount : ℤ
  items : List M
  itemSeqs : List ℤ
  nextSeq : ℤ
  deriving DecidableEq

/-- `get_sequence`; an index out of bounds is an `illegal_argument`. -/
def ReadResultSet.getSequence {M : Type} (r : ReadResultSet M) (index : ℕ) : Option ℤ :=
  r.itemSeqs[index]?

/-- The variables of a runner, and whether it is registered with its topic. -/
structure Runner where
  lossTolerant : Bool
  batchSize : ℤ
  sequence : ℤ
  cancelled : Bool := false
  registered : Bool := true
  /-- the listener has been removed -/
  removed : Bool := false
  deriving DecidableEq

/-- How many items are missing in front of a batch, an `int64_t`. -/
def Runner.lostCount {M : Type} (r : Runner) (result : ReadResultSet M) : ℤ :=
  (result.nextSeq - result.readCount - r.sequence).bmod (2 ^ 64)

inductive Frame (M : Type) where
  /-- `next`; an exception is caught only if the call is in the `try` block -/
  | next (guarded : Bool)
  | await (sequence : ℤ)
  /-- the continuation -/
  | resume (result : Except ErrorCode (ReadResultSet M))
  /-- the loop over the items -/
  | store (result : ReadResultSet M) (index : ℕ)
  | receive (result : ReadResultSet M) (index : ℕ)
  | terminate (result : ReadResultSet M) (index : ℕ)
  /-- the handlers -/
  | handleInternalException (code : ErrorCode)
  | handleIllegalArgument
  deriving DecidableEq

inductive Choice (M : Type) where
  | go
  | threw (code : ErrorCode)
  | response (result : ReadResultSet M)
  /-- the item is not a message of a reliable topic -/
  | undecodable
  | terminal (result : Bool)
  | head (sequence : ℤ)
  | removeMessageListener
  deriving DecidableEq

inductive Event (M : Type) where
  | returned (sequences : List ℤ)
  /-- a call of the listener, and whether it returns -/
  | storeSequenceId (sequence : ℤ) (returns : Bool)
  | undecodable (sequence : ℤ)
  | received (sequence : ℤ) (message : M)
  | onCancel
  deriving DecidableEq

abbrev Effect (M : Type) := Interleaving.Effect Runner Unit (Frame M) (Event M)

namespace Runner

variable {M : Type}

def cancel (r : Runner) : Runner := { r with cancelled := true, registered := false }

def cancelling (r : Runner) : Effect M := { shared := r.cancel, event := some .onCancel }

def stopping (r : Runner) : Effect M := { shared := r }

def goto (r : Runner) (f : Frame M) : Effect M := { shared := r, next := [f] }

def fireNext (r : Runner) (guarded : Bool) : Choice M → Option (Effect M)
  | .go => if r.cancelled then some r.stopping else some (r.goto (.await r.sequence))
  | .threw code =>
    if r.cancelled then none
    else if guarded then some (r.goto (.handleInternalException code))
    else some r.stopping
  | _ => none

def fireResume (r : Runner) (result : Except ErrorCode (ReadResultSet M)) : Effect M :=
  if r.cancelled then r.stopping
  else
    match result with
    | .error code => r.goto (.handleInternalException code)
    | .ok result =>
      if r.lostCount result ≠ 0 ∧ r.lossTolerant = false then r.cancelling
      else r.goto (.store result 0)

def fireStore (r : Runner) (result : ReadResultSet M) (index : ℕ) (choice : Choice M) :
    Option (Effect M) :=
  if index < result.items.length then
    match result.getSequence index, choice with
    | none, .go => some (r.goto (.terminate result index))
    | some sequence, .go =>
      some { r.goto (.receive result index) with event := some (.storeSequenceId sequence true) }
    | some sequence, .threw _ =>
      some { r.goto (.terminate result index) with event := some (.storeSequenceId sequence false) }
    | _, _ => none
  else
    match choice with
    | .go => some ({ r with sequence := result.nextSeq }.goto (.next true))
    | _ => none

def fireReceive (r : Runner) (result : ReadResultSet M) (index : ℕ) (choice : Choice M) :
    Option (Effect M) :=
  match result.getSequence index, result.items[index]?, choice with
  | some sequence, some message, .go =>
    some { r.goto (.store result (index + 1)) with event := some (.received sequence message) }
  | some sequence, some message, .threw _ =>
    some { r.goto (.terminate result index) with event := some (.received sequence message) }
  | some sequence, some _, .undecodable =>
    some { r.goto (.terminate result index) with event := some (.undecodable sequence) }
  | _, _, _ => none

/-- `terminate`. A predicate of the listener that throws counts as `true`. -/
def fireTerminate (r : Runner) (result : ReadResultSet M) (index : ℕ) :
    Choice M → Option (Effect M)
  | .go => if r.cancelled then some r.cancelling else none
  | .terminal answer =>
    if r.cancelled then none
    else if answer then some r.cancelling
    else some (r.goto (.store result (index + 1)))
  | _ => none

def fireHandleInternalException (r : Runner) : ErrorCode → Effect M
  | .timeout => r.goto (.next false)
  | .illegalArgument => r.goto .handleIllegalArgument
  | _ => r.cancelling

def fireHandleIllegalArgument (r : Runner) : Choice M → Option (Effect M)
  | .head sequence =>
    if r.lossTolerant then some ({ r with sequence := sequence }.goto (.next false))
    else some r.cancelling
  | .threw _ => some r.stopping
  | _ => none

def fire (r : Runner) (choice : Choice M) : Frame M → Option (Effect M)
  | .next guarded => r.fireNext guarded choice
  | .await _ =>
    match choice with
    | .response result =>
      some { r.goto (.resume (.ok result)) with event := some (.returned result.itemSeqs) }
    | .threw code => some (r.goto (.resume (.error code)))
    | _ => none
  | .resume result =>
    match choice with
    | .go => some (r.fireResume result)
    | _ => none
  | .store result index => r.fireStore result index choice
  | .receive result index => r.fireReceive result index choice
  | .terminate result index => r.fireTerminate result index choice
  | .handleInternalException code =>
    match choice with
    | .go => some (r.fireHandleInternalException code)
    | _ => none
  | .handleIllegalArgument => r.fireHandleIllegalArgument choice

/-- `remove_message_listener`; nothing happens to a listener that is not registered. -/
def outside (r : Runner) : Choice M → Option (Effect M)
  | .removeMessageListener =>
    if r.registered then
      some { shared := { r.cancel with removed := true }, event := some .onCancel }
    else some { shared := r }
  | _ => none

end Runner

variable {M : Type} {n : ℕ} (first : ℤ) {result : ReadResultSet M}

def machine : Machine Runner Unit (Frame M) (Choice M) (Event M) where
  fire := fun r _ => r.fire
  outside := Runner.outside

abbrev Config (M : Type) := Interleaving.Config Runner Unit (Frame M)

def start (lossTolerant : Bool) (batchSize initial : ℤ) : Config M :=
  ⟨{ lossTolerant := lossTolerant, batchSize := batchSize, sequence := initial },
    [⟨(), [.next false]⟩]⟩

/-! ## Runs with a sane ring buffer -/

/-- `n` sequences from `first` on. -/
def sequences (first : ℤ) (n : ℕ) : List ℤ := (List.range n).map fun (i : ℕ) => first + i

/-- A result of reading from `s`: one item or more, from the head of the buffer on if `s` is
behind it. -/
def Conforms (s : ℤ) (result : ReadResultSet M) : Prop :=
  ∃ (head : ℤ) (m : ℕ), 1 ≤ m ∧ result.items.length = m ∧ result.readCount = m ∧
    result.itemSeqs = sequences (max s head) m ∧ result.nextSeq = max s head + m ∧
    result.nextSeq < 2 ^ 63

theorem conforms_iff {s : ℤ} : Conforms s result ↔
    1 ≤ result.items.length ∧ result.readCount = result.items.length ∧
      s ≤ result.nextSeq - result.items.length ∧
      result.itemSeqs = sequences (result.nextSeq - result.items.length) result.items.length ∧
      result.nextSeq < 2 ^ 63 := by
  constructor
  · rintro ⟨head, m, hm, rfl, hcount, hseqs, hnext, hlt⟩
    have hfirst : result.nextSeq - result.items.length = max s head := by omega
    rw [hfirst]
    exact ⟨hm, hcount, le_max_left _ _, hseqs, hlt⟩
  · rintro ⟨hm, hcount, hle, hseqs, hlt⟩
    refine ⟨result.nextSeq - result.items.length, result.items.length, hm, rfl, hcount, ?_, ?_, hlt⟩
    · rwa [max_eq_right hle]
    · rw [max_eq_right hle, sub_add_cancel]

instance (s : ℤ) (result : ReadResultSet M) : Decidable (Conforms s result) :=
  decidable_of_iff _ conforms_iff.symm

/-- Reads give conforming results or fail, other than with `illegal_argument`, and the
listener does not want to be terminated. -/
def Proper (_ : Config M) : Move (Frame M) (Choice M) → Prop
  | .frame (.await s) (.response result) => Conforms s result
  | .frame (.await _) (.threw code) => code ≠ .illegalArgument
  | .frame (.next _) (.threw code) => code ≠ .illegalArgument
  | .frame (.terminate _ _) (.terminal answer) => answer = false
  | _ => True

instance (c : Config M) (mv : Move (Frame M) (Choice M)) : Decidable (Proper c mv) := by
  unfold Proper
  split <;> infer_instance

/-- What has happened: the batches that were returned, the sequences that the listener was
told to store, which is how it gets to see them, and those of the messages it got. Of the
others the call to store them has thrown, or the item was not a message. -/
structure History where
  batches : List (List ℤ) := []
  handed : List ℤ := []
  failed : List ℤ := []
  received : List ℤ := []

def History.add (h : History) : Event M → History
  | .returned sequences => { h with batches := h.batches ++ [sequences] }
  | .storeSequenceId sequence true => { h with handed := h.handed ++ [sequence] }
  | .storeSequenceId sequence false =>
    { h with handed := h.handed ++ [sequence], failed := h.failed ++ [sequence] }
  | .undecodable sequence => { h with failed := h.failed ++ [sequence] }
  | .received sequence _ => { h with received := h.received ++ [sequence] }
  | .onCancel => h

def history (events : List (Event M)) : History := events.foldl History.add {}

theorem history_append (events : List (Event M)) (ev : Option (Event M)) :
    history (events ++ ev.toList) = ev.elim (history events) (history events).add := by
  cases ev with
  | none => exact congrArg history (append_nil events)
  | some ev => exact foldl_append

def Frame.rest : Frame M → List ℤ
  | .resume (.ok result) => result.itemSeqs
  | .store result index => result.itemSeqs.drop index
  | .receive result index => result.itemSeqs.drop (index + 1)
  | .terminate result index => result.itemSeqs.drop (index + 1)
  | _ => []

/-- The message that the listener is about to get. -/
def Frame.pending : Frame M → List ℤ
  | .receive result index => (result.getSequence index).toList
  | _ => []

/-- Nothing is missing in what has been returned. -/
def Gapless (initial : ℤ) (past : History) : Prop :=
  ∃ n, past.batches.flatten = sequences initial n

/-- What a listener gets, of a runner `r` whose chain is at `frames`. Without tolerance for
loss a gap is in the last batch that is returned, of which nothing is handed over. -/
structure InOrder (lossTolerant : Bool) (initial : ℤ) (past : History) (r : Runner)
    (frames : List (Frame M)) : Prop where
  increasing : past.handed.Pairwise (· < ·)
  returned : past.handed <+: past.batches.flatten
  all : r.removed = false → frames.flatMap Frame.rest = [] →
    lossTolerant = true ∨ Gapless initial past → past.handed = past.batches.flatten
  messages : past.received ++ frames.flatMap Frame.pending =
    past.handed.filter (· ∉ past.failed)
  consecutive : lossTolerant = false → ∃ n, past.handed = sequences initial n
  gap : lossTolerant = false → ¬ Gapless initial past → ∃ earlier batch n,
    past.batches = earlier ++ [batch] ∧ earlier.flatten = sequences initial n ∧
    batch.head? ≠ some (initial + n) ∧ past.handed <+: earlier.flatten ∧
    (r.removed = false → past.handed = earlier.flatten) ∧
    (r.cancelled = true ∨ ∃ result, frames = [.resume (.ok result)])

/-! ### Sequences -/

theorem sequences_succ (n : ℕ) : sequences first (n + 1) = sequences first n ++ [first + n] := by
  simp [sequences, range_succ]

theorem sequences_append (n m : ℕ) :
    sequences first n ++ sequences (first + n) m = sequences first (n + m) := by
  induction m with
  | zero => simp [sequences]
  | succ m ih =>
    rw [sequences_succ, ← append_assoc, ih, ← Nat.add_assoc, sequences_succ]
    push_cast
    rw [Int.add_assoc]

@[simp] theorem length_sequences (first : ℤ) (n : ℕ) : (sequences first n).length = n := by
  simp [sequences]

theorem head?_sequences (h : 1 ≤ n) : (sequences first n).head? = some first := by
  obtain ⟨k, rfl⟩ : ∃ k, n = k + 1 := ⟨n - 1, by omega⟩
  simp [sequences, range_succ_eq_map]

theorem mem_sequences {first x : ℤ} :
    x ∈ sequences first n ↔ first ≤ x ∧ x < first + n := by
  simp only [sequences, mem_map, mem_range]
  constructor
  · rintro ⟨i, hi, rfl⟩
    omega
  · rintro ⟨hle, hlt⟩
    exact ⟨(x - first).toNat, by omega, by omega⟩

theorem pairwise_sequences (n : ℕ) : (sequences first n).Pairwise (· < ·) := by
  induction n with
  | zero => exact List.Pairwise.nil
  | succ n ih =>
    rw [sequences_succ, pairwise_append]
    refine ⟨ih, pairwise_singleton _ _, fun x hx y hy => ?_⟩
    rw [mem_singleton.mp hy]
    exact (mem_sequences.mp hx).2

theorem prefix_sequences {l : List ℤ} {first : ℤ} (h : l <+: sequences first n) :
    ∃ k, l = sequences first k := by
  refine ⟨min l.length n, ?_⟩
  have htake := prefix_iff_eq_take.mp h
  rwa [sequences, ← map_take, take_range] at htake

/-! ### What has been returned -/

/-- Sequences up to `s`, in order, and consecutive unless loss is tolerated. -/
structure Upto (lossTolerant : Bool) (initial : ℤ) (l : List ℤ) (s : ℤ) : Prop where
  increasing : l.Pairwise (· < ·)
  lt : ∀ x ∈ l, x < s
  consecutive : lossTolerant = false → ∃ n : ℕ, l = sequences initial n ∧ s = initial + n

section Upto

variable {lossTolerant : Bool} {initial s : ℤ} {l : List ℤ}

theorem Upto.append (h : Upto lossTolerant initial l s) {first : ℤ} (m : ℕ) (hle : s ≤ first)
    (hgap : lossTolerant = false → first = s) :
    Upto lossTolerant initial (l ++ sequences first m) (first + m) := by
  refine ⟨?_, ?_, ?_⟩
  · rw [pairwise_append]
    refine ⟨h.increasing, pairwise_sequences first m, fun x hx y hy => ?_⟩
    exact lt_of_lt_of_le (h.lt x hx) (hle.trans (mem_sequences.mp hy).1)
  · intro x hx
    rcases mem_append.mp hx with hx | hx
    · have hlt := h.lt x hx
      omega
    · exact (mem_sequences.mp hx).2
  · intro hstrict
    obtain ⟨n, rfl, hs⟩ := h.consecutive hstrict
    refine ⟨n + m, ?_, ?_⟩
    · rw [hgap hstrict, hs, sequences_append]
    · rw [hgap hstrict, hs]
      push_cast
      ring

end Upto

/-- The range of an `int64_t`. -/
def Int64 (x : ℤ) : Prop := -2 ^ 63 ≤ x ∧ x < 2 ^ 63

/-- A result that conforms, with the first sequence in it. -/
structure Batch (s : ℤ) (result : ReadResultSet M) (first : ℤ) (m : ℕ) : Prop where
  le : s ≤ first
  nonempty : 1 ≤ m
  items : result.items.length = m
  itemSeqs : result.itemSeqs = sequences first m
  nextSeq : result.nextSeq = first + m
  readCount : result.readCount = m
  nextSeq_lt : result.nextSeq < 2 ^ 63

theorem Conforms.batch {s : ℤ} (h : Conforms s result) : ∃ first m, Batch s result first m := by
  obtain ⟨head, m, hm, hitems, hcount, hseqs, hnext, hlt⟩ := h
  exact ⟨max s head, m, le_max_left _ _, hm, hitems, hseqs, hnext, hcount, hlt⟩

namespace Batch

variable {s first : ℤ} {m : ℕ} {result : ReadResultSet M}

theorem head? (h : Batch s result first m) : result.itemSeqs.head? = some first :=
  h.itemSeqs ▸ head?_sequences first h.nonempty

/-- The count is right in spite of the wrapping arithmetic. -/
theorem lostCount_eq_zero_iff (h : Batch s result first m) {r : Runner} (hr : r.sequence = s)
    (hs : Int64 s) : r.lostCount result = 0 ↔ first = s := by
  have hle := h.le
  have hlt := h.nextSeq_lt
  have hnext := h.nextSeq
  have hm := h.nonempty
  obtain ⟨hs₁, hs₂⟩ := hs
  unfold Runner.lostCount
  rw [h.nextSeq, h.readCount, hr, show first + (m : ℤ) - m - s = first - s by ring]
  constructor
  · intro hzero
    have hdvd := Int.dvd_of_bmod_eq_zero hzero
    omega
  · rintro rfl
    simp

end Batch

/-! ### What has been received -/

/-- A sequence that is handed over is received, in the same order, or has failed. -/
structure Accounted (received failed handed : List ℤ) : Prop where
  sublist : received.Sublist handed
  perm : (received ++ failed).Perm handed

namespace Accounted

variable {received failed handed : List ℤ} (h : Accounted received failed handed)

include h

theorem append_received (sequence : ℤ) :
    Accounted (received ++ [sequence]) failed (handed ++ [sequence]) := by
  refine ⟨h.sublist.append_right [sequence], ?_⟩
  rw [append_assoc]
  refine (perm_append_comm.append_left received).trans ?_
  rw [← append_assoc]
  exact h.perm.append_right [sequence]

theorem append_failed (sequence : ℤ) :
    Accounted received (failed ++ [sequence]) (handed ++ [sequence]) := by
  refine ⟨h.sublist.trans (sublist_append_left _ _), ?_⟩
  rw [← append_assoc]
  exact h.perm.append_right [sequence]

theorem eq_filter (hnodup : handed.Nodup) : received = handed.filter (· ∉ failed) := by
  have hdisjoint := (nodup_append.mp (h.perm.nodup_iff.mpr hnodup)).2.2
  have hkept : received.filter (· ∉ failed) = received :=
    filter_eq_self.mpr fun x hx => decide_eq_true fun hfailed => hdisjoint x hx x hfailed rfl
  have hlength := (h.perm.filter (· ∉ failed)).length_eq
  rw [filter_append, hkept, length_append, (filter_eq_nil_iff (l := failed)).mpr (by simp),
    length_nil, Nat.add_zero] at hlength
  exact Sublist.eq_of_length (hkept ▸ h.sublist.filter _) hlength

end Accounted

/-! ### The chain -/

section Chain

variable (lossTolerant : Bool) (initial : ℤ) (past : History) (r : Runner)

structure Between : Prop where
  handed_eq : past.handed = past.batches.flatten
  upto : Upto lossTolerant initial past.batches.flatten r.sequence
  int64 : Int64 r.sequence
  messages : Accounted past.received past.failed past.handed

structure Returned (result : ReadResultSet M) : Prop where
  split : ∃ earlier, past.batches = earlier ++ [result.itemSeqs] ∧
    past.handed = earlier.flatten ∧ Upto lossTolerant initial earlier.flatten r.sequence
  int64 : Int64 r.sequence
  conforms : Conforms r.sequence result
  messages : Accounted past.received past.failed past.handed

/-- In the loop over a batch, with the items from `index` on still to come. -/
structure Looping (result : ReadResultSet M) (index : ℕ) : Prop where
  handed_append : past.handed ++ result.itemSeqs.drop index = past.batches.flatten
  upto : Upto lossTolerant initial past.batches.flatten result.nextSeq
  int64 : Int64 result.nextSeq
  length_eq : result.items.length = result.itemSeqs.length

/-- What holds at each place of the chain. -/
def Holds : Frame M → Prop
  | .next _ => Between lossTolerant initial past r
  | .await s => s = r.sequence ∧ Between lossTolerant initial past r
  | .resume (.error code) => code ≠ .illegalArgument ∧ Between lossTolerant initial past r
  | .resume (.ok result) => Returned lossTolerant initial past r result
  | .store result index => Looping lossTolerant initial past result index ∧
      Accounted past.received past.failed past.handed
  | .receive result index => Looping lossTolerant initial past result (index + 1) ∧
      ∃ earlier sequence, result.getSequence index = some sequence ∧
        past.handed = earlier ++ [sequence] ∧ Accounted past.received past.failed earlier
  | .terminate result index => Looping lossTolerant initial past result (index + 1) ∧
      Accounted past.received past.failed past.handed
  | .handleInternalException code =>
    code ≠ .illegalArgument ∧ Between lossTolerant initial past r
  | .handleIllegalArgument => False

end Chain

section Steps

variable {lossTolerant : Bool} {initial : ℤ} {past : History} {r : Runner} {index : ℕ}
  {sequence : ℤ} {r' : Runner} {frames : List (Frame M)} {result : ReadResultSet M}

theorem Accounted.messages (h : Accounted past.received past.failed past.handed)
    (hincreasing : past.handed.Pairwise (· < ·)) (hpending : frames.flatMap Frame.pending = []) :
    past.received ++ frames.flatMap Frame.pending = past.handed.filter (· ∉ past.failed) := by
  rw [hpending, append_nil]
  exact h.eq_filter (hincreasing.imp ne_of_lt)

theorem Between.inOrder (h : Between lossTolerant initial past r) (r' : Runner)
    (hpending : frames.flatMap Frame.pending = []) :
    InOrder lossTolerant initial past r' frames := by
  have hincreasing : past.handed.Pairwise (· < ·) := by
    rw [h.handed_eq]
    exact h.upto.increasing
  refine ⟨hincreasing, ?_, ?_, h.messages.messages hincreasing hpending, ?_, ?_⟩
  · exact h.handed_eq ▸ prefix_rfl
  · exact fun _ _ _ => h.handed_eq
  · intro hstrict
    obtain ⟨n, hn, -⟩ := h.upto.consecutive hstrict
    exact ⟨n, h.handed_eq.trans hn⟩
  · intro hstrict hgap
    obtain ⟨n, hn, -⟩ := h.upto.consecutive hstrict
    exact absurd ⟨n, hn⟩ hgap

section

variable (h : Looping lossTolerant initial past result index)

include h

theorem Looping.store (hseq : result.getSequence index = some sequence) (returns : Bool) :
    Looping lossTolerant initial (past.add (.storeSequenceId sequence returns : Event M)) result
      (index + 1) := by
  obtain ⟨hlt, hget⟩ := List.getElem?_eq_some_iff.mp hseq
  have happend : past.handed ++ [sequence] ++ result.itemSeqs.drop (index + 1) =
      past.batches.flatten := by
    rw [← h.handed_append, drop_eq_getElem_cons hlt, hget, append_assoc]
    rfl
  cases returns <;> exact ⟨happend, h.upto, h.int64, h.length_eq⟩

theorem Looping.increasing : past.handed.Pairwise (· < ·) :=
  h.upto.increasing.sublist (h.handed_append ▸ sublist_append_left _ _)

theorem Looping.inOrder
    (hmessages : past.received ++ frames.flatMap Frame.pending =
      past.handed.filter (· ∉ past.failed))
    (hrest : r'.removed = false → frames.flatMap Frame.rest = [] →
      result.itemSeqs.drop index = []) :
    InOrder lossTolerant initial past r' frames := by
  have hfront : past.handed <+: past.batches.flatten :=
    ⟨_, h.handed_append⟩
  refine ⟨h.increasing, hfront, ?_, hmessages, ?_, ?_⟩
  · intro hremoved hframes _
    have happend := h.handed_append
    rwa [hrest hremoved hframes, append_nil] at happend
  · intro hstrict
    obtain ⟨n, hn, -⟩ := h.upto.consecutive hstrict
    exact prefix_sequences (hn ▸ hfront)
  · intro hstrict hgap
    obtain ⟨n, hn, -⟩ := h.upto.consecutive hstrict
    exact absurd ⟨n, hn⟩ hgap

end

/-- A batch that has been returned is not handed over if the runner is cancelled, which it
is because the listener was removed or because of a gap. -/
theorem Returned.inOrder (h : Returned lossTolerant initial past r result)
    (hpending : frames.flatMap Frame.pending = [])
    (hall : r'.removed = false → frames.flatMap Frame.rest = [] →
      lossTolerant = false ∧ r.lostCount result ≠ 0)
    (hcancelled : r'.cancelled = true ∨ ∃ result, frames = [.resume (.ok result)]) :
    InOrder lossTolerant initial past r' frames := by
  obtain ⟨earlier, hbatches, hhanded, hupto⟩ := h.split
  obtain ⟨first, m, hbatch⟩ := h.conforms.batch
  have hflatten := (congrArg List.flatten hbatches).trans flatten_concat
  -- a batch that follows on leaves no gap, and the others do
  have hgapless : ∀ n : ℕ, earlier.flatten = sequences initial n →
      r.sequence = initial + n → (Gapless initial past ↔ first = r.sequence) := by
    intro n hn hs
    constructor
    · rintro ⟨k, hk⟩
      rw [hflatten, hn, hbatch.itemSeqs] at hk
      have hlength : n + m = k := by
        have := congrArg List.length hk
        simpa using this
      rw [← hlength, ← sequences_append, append_right_inj] at hk
      have hhead := congrArg List.head? hk
      rw [head?_sequences _ hbatch.nonempty, head?_sequences _ hbatch.nonempty,
        Option.some.injEq] at hhead
      rw [hhead, hs]
    · intro hfirst
      refine ⟨n + m, ?_⟩
      rw [hflatten, hn, hbatch.itemSeqs, hfirst, hs, sequences_append]
  have hincreasing : past.handed.Pairwise (· < ·) := hhanded ▸ hupto.increasing
  refine ⟨hincreasing, ?_, ?_, h.messages.messages hincreasing hpending, ?_, ?_⟩
  · rw [hhanded, hflatten]
    exact prefix_append _ _
  · intro hremoved hframes hor
    obtain ⟨hstrict, hlost⟩ := hall hremoved hframes
    obtain ⟨n, hn, hs⟩ := hupto.consecutive hstrict
    have hfirst := (hgapless n hn hs).mp (hor.resolve_left (by simp [hstrict]))
    exact absurd ((hbatch.lostCount_eq_zero_iff rfl h.int64).mpr hfirst) hlost
  · intro hstrict
    obtain ⟨n, hn, -⟩ := hupto.consecutive hstrict
    exact ⟨n, hhanded.trans hn⟩
  · intro hstrict hgap
    obtain ⟨n, hn, hs⟩ := hupto.consecutive hstrict
    refine ⟨earlier, result.itemSeqs, n, hbatches, hn, ?_, ?_, fun _ => hhanded, hcancelled⟩
    · rw [hbatch.head?, Ne, Option.some.injEq, ← hs]
      exact fun hfirst => hgap ((hgapless n hn hs).mpr hfirst)
    · exact hhanded ▸ prefix_rfl

/-- The chain is at one of its places, or it has ended. It goes on after a cancellation only
if the listener has been removed. -/
def Tracks (lossTolerant : Bool) (initial : ℤ) (past : History) (r : Runner)
    (frames : List (Frame M)) : Prop :=
  r.lossTolerant = lossTolerant ∧
    ((∃ f, frames = [f] ∧ (r.cancelled = true → r.removed = true) ∧
      Holds lossTolerant initial past r f) ∨
    frames = [] ∧ InOrder lossTolerant initial past r frames)

def Leads (lossTolerant : Bool) (initial : ℤ) (past : History) (e : Effect M) : Prop :=
  e.spawned = [] ∧
    Tracks lossTolerant initial (e.event.elim past past.add) e.shared e.next

section Fire

variable {e : Effect M} (hr : r.lossTolerant = lossTolerant)
  (hremoved : r.cancelled = true → r.removed = true) {f : Frame M} {choice : Choice M} {index : ℕ}
include hr

theorem leads_stopping (h : InOrder lossTolerant initial past r ([] : List (Frame M))) :
    Leads lossTolerant initial past (r.stopping : Effect M) :=
  ⟨rfl, hr, .inr ⟨rfl, h⟩⟩

theorem leads_cancelling (h : InOrder lossTolerant initial past r.cancel ([] : List (Frame M))) :
    Leads lossTolerant initial past (r.cancelling : Effect M) :=
  ⟨rfl, hr, .inr ⟨rfl, h⟩⟩

include hremoved

theorem leads_goto (h : Holds lossTolerant initial past r f) :
    Leads lossTolerant initial past (r.goto f) :=
  ⟨rfl, hr, .inl ⟨f, rfl, hremoved, h⟩⟩

theorem leads_goto_event (ev : Event M) (h : Holds lossTolerant initial (past.add ev) r f) :
    Leads lossTolerant initial past { r.goto f with event := some ev } :=
  ⟨rfl, hr, .inl ⟨f, rfl, hremoved, h⟩⟩

theorem leads_next {guarded : Bool} (h : Between lossTolerant initial past r)
    (hproper : ∀ code, choice = .threw code → code ≠ .illegalArgument)
    (hfire : r.fireNext guarded choice = some e) : Leads lossTolerant initial past e := by
  revert hfire
  fun_cases Runner.fireNext r guarded choice <;> rintro ⟨⟩
  · exact leads_stopping hr (h.inOrder r rfl)
  · exact leads_goto hr hremoved ⟨rfl, h⟩
  · exact leads_goto hr hremoved ⟨hproper _ rfl, h⟩
  · exact leads_stopping hr (h.inOrder r rfl)

theorem leads_response (h : Between lossTolerant initial past r)
    (hconforms : Conforms r.sequence result) :
    Leads lossTolerant initial past
      { r.goto (.resume (.ok result)) with event := some (.returned result.itemSeqs) } := by
  exact leads_goto_event hr hremoved _
    ⟨⟨past.batches, rfl, h.handed_eq, h.upto⟩, h.int64, hconforms, h.messages⟩

theorem leads_resume_ok (h : Returned lossTolerant initial past r result) :
    Leads lossTolerant initial past (r.fireResume (.ok result)) := by
  unfold Runner.fireResume
  split
  · rename_i hcancelled
    refine leads_stopping hr (h.inOrder rfl (fun hnot => ?_) (.inl hcancelled))
    rw [hremoved hcancelled] at hnot
    cases hnot
  · simp only
    split
    · rename_i hlost
      exact leads_cancelling hr
        (h.inOrder rfl (fun _ _ => ⟨hr ▸ hlost.2, hlost.1⟩) (.inl rfl))
    · rename_i hlost
      obtain ⟨earlier, hbatches, hhanded, hupto⟩ := h.split
      obtain ⟨first, m, hbatch⟩ := h.conforms.batch
      have hflatten := (congrArg List.flatten hbatches).trans flatten_concat
      have hfirst : lossTolerant = false → first = r.sequence := by
        intro hstrict
        rw [← hbatch.lostCount_eq_zero_iff rfl h.int64]
        by_contra hne
        exact hlost ⟨hne, hr.trans hstrict⟩
      refine leads_goto hr hremoved ⟨⟨?_, ?_, ?_, ?_⟩, h.messages⟩
      · rw [hhanded, hflatten, drop_zero]
      · rw [hflatten, hbatch.itemSeqs, hbatch.nextSeq]
        exact hupto.append m hbatch.le hfirst
      · have hs := h.int64.1
        have hle := hbatch.le
        have hnext := hbatch.nextSeq
        exact ⟨by omega, hbatch.nextSeq_lt⟩
      · rw [hbatch.items, hbatch.itemSeqs, length_sequences]

theorem leads_store (h : Looping lossTolerant initial past result index)
    (hmessages : Accounted past.received past.failed past.handed)
    (hfire : r.fireStore result index choice = some e) : Leads lossTolerant initial past e := by
  revert hfire
  fun_cases Runner.fireStore r result index choice <;> rintro ⟨⟩
  · rename_i hlt hnone
    rw [h.length_eq] at hlt
    cases hnone.symm.trans (List.getElem?_eq_getElem hlt)
  · rename_i sequence hsequence
    exact leads_goto_event hr hremoved _
      ⟨h.store hsequence true, past.handed, sequence, hsequence, rfl, hmessages⟩
  · exact leads_goto_event hr hremoved _ ⟨h.store ‹_› false, hmessages.append_failed _⟩
  · rename_i hlast
    rw [h.length_eq, not_lt] at hlast
    have hhanded := h.handed_append
    rw [drop_eq_nil_of_le hlast, append_nil] at hhanded
    exact leads_goto (r := { r with sequence := result.nextSeq }) hr hremoved
      ⟨hhanded, h.upto, h.int64, hmessages⟩

theorem leads_receive (h : Holds lossTolerant initial past r (.receive result index))
    (hfire : r.fireReceive result index choice = some e) : Leads lossTolerant initial past e := by
  obtain ⟨hloop, earlier, sequence, hsequence, hhanded, hmessages⟩ := h
  revert hfire
  have hreceived := hmessages.append_received sequence
  have hfailed := hmessages.append_failed sequence
  rw [← hhanded] at hreceived hfailed
  have hloop' (ev : Event M) (h : (past.add ev).handed = past.handed ∧
      (past.add ev).batches = past.batches) :
      Looping lossTolerant initial (past.add ev) result (index + 1) :=
    ⟨h.1 ▸ h.2 ▸ hloop.handed_append, h.2 ▸ hloop.upto, hloop.int64, hloop.length_eq⟩
  fun_cases Runner.fireReceive r result index choice <;> rintro ⟨⟩
  · cases hsequence.symm.trans ‹_›
    exact leads_goto_event hr hremoved _ ⟨hloop' _ ⟨rfl, rfl⟩, hreceived⟩
  · cases hsequence.symm.trans ‹_›
    exact leads_goto_event hr hremoved _ ⟨hloop' _ ⟨rfl, rfl⟩, hreceived⟩
  · cases hsequence.symm.trans ‹_›
    exact leads_goto_event hr hremoved _ ⟨hloop' _ ⟨rfl, rfl⟩, hfailed⟩

theorem leads_terminate (h : Looping lossTolerant initial past result (index + 1))
    (hmessages : Accounted past.received past.failed past.handed)
    (hproper : ∀ answer, choice = .terminal answer → answer = false)
    (hfire : r.fireTerminate result index choice = some e) : Leads lossTolerant initial past e := by
  revert hfire
  fun_cases Runner.fireTerminate r result index choice <;> rintro ⟨⟩
  · rename_i hcancelled
    refine leads_cancelling hr (h.inOrder (hmessages.messages h.increasing rfl) fun hnot => ?_)
    rw [show r.cancel.removed = true from hremoved hcancelled] at hnot
    cases hnot
  · cases hproper _ rfl
  · exact leads_goto hr hremoved ⟨h, hmessages⟩

theorem leads_handleInternalException {code : ErrorCode} (hcode : code ≠ .illegalArgument)
    (h : Between lossTolerant initial past r) :
    Leads lossTolerant initial past (r.fireHandleInternalException code : Effect M) := by
  unfold Runner.fireHandleInternalException
  split
  · exact leads_goto hr hremoved h
  · exact absurd rfl hcode
  · exact leads_cancelling hr (h.inOrder _ rfl)

theorem leads_fire {c : Config M} (h : Holds lossTolerant initial past r f)
    (hproper : Proper c (.frame f choice)) (hfire : r.fire choice f = some e) :
    Leads lossTolerant initial past e := by
  cases f with
  | next guarded =>
    refine leads_next hr hremoved h ?_ hfire
    rintro code rfl
    exact hproper
  | await s =>
    obtain ⟨rfl, hbetween⟩ := h
    cases choice with
    | response result =>
      cases hfire
      exact leads_response hr hremoved hbetween hproper
    | threw code =>
      cases hfire
      exact leads_goto hr hremoved ⟨hproper, hbetween⟩
    | _ => cases hfire
  | resume result =>
    cases choice with
    | go =>
      cases hfire
      cases result with
      | ok result => exact leads_resume_ok hr hremoved h
      | error code =>
        unfold Runner.fireResume
        split
        · exact leads_stopping hr (h.2.inOrder r rfl)
        · exact leads_goto hr hremoved h
    | _ => cases hfire
  | store result index => exact leads_store hr hremoved h.1 h.2 hfire
  | receive result index => exact leads_receive hr hremoved h hfire
  | terminate result index =>
    refine leads_terminate hr hremoved h.1 h.2 ?_ hfire
    rintro answer rfl
    exact hproper
  | handleInternalException code =>
    cases choice with
    | go =>
      cases hfire
      exact leads_handleInternalException hr hremoved h.1 h.2
    | _ => cases hfire
  | handleIllegalArgument => exact h.elim

end Fire

theorem Holds.inOrder {f : Frame M} (h : Holds lossTolerant initial past r f) :
    InOrder lossTolerant initial past r [f] := by
  cases f with
  | next guarded => exact Between.inOrder h r rfl
  | await s | handleInternalException code => exact h.2.inOrder r rfl
  | resume result =>
    cases result with
    | error code => exact h.2.inOrder r rfl
    | ok result =>
      refine Returned.inOrder h rfl (fun _ hrest => ?_) (.inr ⟨result, rfl⟩)
      obtain ⟨first, m, hbatch⟩ := h.conforms.batch
      have hhead := hbatch.head?
      rw [show result.itemSeqs = [] from (append_nil _).symm.trans hrest] at hhead
      cases hhead
  | store result index | terminate result index =>
    exact h.1.inOrder (h.2.messages h.1.increasing rfl) fun _ hrest =>
      (append_nil _).symm.trans hrest
  | receive result index =>
    obtain ⟨hloop, earlier, sequence, hsequence, hhanded, hmessages⟩ := h
    have hreceived := hmessages.append_received sequence
    rw [← hhanded] at hreceived
    refine hloop.inOrder ?_ fun _ hrest => (append_nil _).symm.trans hrest
    rw [← hreceived.eq_filter (hloop.increasing.imp ne_of_lt)]
    simp [Frame.pending, hsequence]
  | handleIllegalArgument => exact h.elim

end Steps

theorem Holds.of_sequence_eq {lossTolerant : Bool} {initial : ℤ} {past : History} {r r' : Runner}
    {f : Frame M} (hsequence : r'.sequence = r.sequence)
    (h : Holds lossTolerant initial past r f) : Holds lossTolerant initial past r' f := by
  have hbetween : Between lossTolerant initial past r → Between lossTolerant initial past r' :=
    fun h => ⟨h.handed_eq, hsequence ▸ h.upto, hsequence ▸ h.int64, h.messages⟩
  cases f with
  | next guarded => exact hbetween h
  | await s => exact ⟨h.1.trans hsequence.symm, hbetween h.2⟩
  | resume result =>
    cases result with
    | error code => exact ⟨h.1, hbetween h.2⟩
    | ok result =>
      exact ⟨hsequence ▸ h.split, hsequence ▸ h.int64, hsequence ▸ h.conforms, h.messages⟩
  | store result index | receive result index | terminate result index | handleIllegalArgument =>
    exact h
  | handleInternalException code => exact ⟨h.1, hbetween h.2⟩

/-- Removing the listener changes nothing of what has been handed over. -/
theorem Tracks.outside {lossTolerant : Bool} {initial : ℤ} {past : History}
    {r : Runner} {frames : List (Frame M)} {choice : Choice M} {e : Effect M}
    (h : Tracks lossTolerant initial past r frames) (hout : r.outside choice = some e) :
    e.spawned = [] ∧
      Tracks lossTolerant initial (e.event.elim past past.add) e.shared frames := by
  obtain ⟨hr, hcases⟩ := h
  revert hout
  fun_cases Runner.outside r choice <;> rintro ⟨⟩
  · refine ⟨rfl, hr, ?_⟩
    rcases hcases with ⟨f, hframes, -, hholds⟩ | ⟨hframes, hended⟩
    · have hholds' : Holds lossTolerant initial past { r.cancel with removed := true } f :=
        Holds.of_sequence_eq (r := r) rfl hholds
      exact .inl ⟨f, hframes, fun _ => rfl, hholds'⟩
    · subst hframes
      refine .inr ⟨rfl, hended.increasing, hended.returned, nofun, hended.messages,
        hended.consecutive, fun hstrict hgap => ?_⟩
      obtain ⟨earlier, batch, n, hbatches, hearlier, hhead, hfront, -, -⟩ :=
        hended.gap hstrict hgap
      exact ⟨earlier, batch, n, hbatches, hearlier, hhead, hfront, nofun, .inl rfl⟩
  · exact ⟨rfl, hr, hcases⟩

section Runs

variable {lossTolerant : Bool} {batchSize initial : ℤ} {events : List (Event M)} {c : Config M}

theorem tracks_of_run (hinitial : Int64 initial)
    (hrun : Run machine Proper (start lossTolerant batchSize initial) events c) :
    Tracks lossTolerant initial (history events) c.shared c.frames := by
  refine hrun.frameInvariant
    (P := fun es r frames => Tracks lossTolerant initial (history es) r frames) ?_ ?_ ?_ ?_
  · rintro es r frames frames' hperm ⟨hr, ⟨f, rfl, hf⟩ | ⟨rfl, hended⟩⟩
    · exact ⟨hr, .inl ⟨f, perm_singleton.mp hperm.symm, hf⟩⟩
    · obtain rfl := perm_nil.mp hperm.symm
      exact ⟨hr, .inr ⟨rfl, hended⟩⟩
  · refine ⟨rfl, .inl ⟨.next false, rfl, fun h => (by cases h), rfl, ?_, hinitial, ?_⟩⟩
    · refine ⟨List.Pairwise.nil, fun x hx => (by cases hx), fun _ => ⟨0, rfl, ?_⟩⟩
      exact (add_zero initial).symm
    · exact ⟨.refl _, .refl _⟩
  · intro es c₁ f choice others threads e _ _ h hproper hfire
    obtain ⟨hr, ⟨f', hframes, hremoved, hholds⟩ | ⟨hnil, -⟩⟩ := h
    · cases hframes
      obtain ⟨hspawned, htracks⟩ := leads_fire hr hremoved hholds hproper hfire
      rwa [Interleaving.Effect.spawnedFrames, hspawned, flatMap_nil, append_nil,
        append_nil, history_append]
    · cases hnil
  · intro es c₁ choice e _ h _ hout
    obtain ⟨hspawned, htracks⟩ := h.outside hout
    rwa [Interleaving.Effect.spawnedFrames, hspawned, flatMap_nil, append_nil,
      history_append]

end Runs

/-! ### A run -/

/-- The sequences 5 and 6 are read, the first one is not a message, a read times out, and then
there is a gap. -/
def gapSchedule : List (Pick (Choice Unit)) :=
  [.thread 0 .go, .thread 0 (.response ⟨2, [(), ()], [5, 6], 7⟩), .thread 0 .go,
    .thread 0 .go, .thread 0 .undecodable, .thread 0 (.terminal false),
    .thread 0 .go, .thread 0 .go, .thread 0 .go,
    .thread 0 .go, .thread 0 (.threw .timeout), .thread 0 .go, .thread 0 .go,
    .thread 0 .go, .thread 0 (.response ⟨1, [()], [9], 10⟩), .thread 0 .go]

end HazelcastClient.Topic
