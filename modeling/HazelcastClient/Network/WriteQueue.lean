import HazelcastClient.Interleaving.Automaton
import Mathlib.Data.List.Basic

/-!
# The write queue of a socket

`enqueue_write` pushes an entry to a lock-free queue and posts `flush_write_queue` to the
strand of the socket. A flush drains the queue into one `async_write`; while a write is in
progress it does nothing, and the completion handler of the write looks at the queue again.
Entries are numbered in the order in which they are pushed.
-/

namespace HazelcastClient.Network

open Interleaving List

/-- What the strand is executing: `flush_write_queue` at its check or in its loop, or the
completion handler at its look at the queue. -/
inductive Strand where
  | idle
  | flush
  | drain
  | checkEmpty
  deriving DecidableEq

structure BaseSocket where
  writeQueue : List ℕ := []
  drainBatch : List ℕ := []
  writeInProgress : Bool := false
  strand : Strand := .idle
  /-- the entries that have been pushed, and the callers that have not posted yet -/
  enqueued : ℕ := 0
  pushing : ℕ := 0
  /-- the flushes that wait for the strand -/
  posted : ℕ := 0
  /-- the operations under way, and the completion handlers that wait for the strand -/
  writing : ℕ := 0
  handlers : ℕ := 0
  /-- the entries of each `async_write`, the number of those that have succeeded, and the
  entries that have been deleted -/
  issued : List (List ℕ) := []
  completed : ℕ := 0
  deleted : List ℕ := []
  deriving DecidableEq

/-- A caller pushes or posts, the strand starts a flush or a handler or goes on with what it
executes, an operation succeeds. -/
inductive SocketChoice where
  | push
  | post
  | startFlush
  | startHandler
  | proceed
  | succeed

namespace BaseSocket

/-- The next step of the strand. -/
def proceed (s : BaseSocket) : Option BaseSocket :=
  match s.strand with
  | .idle => none
  | .flush =>
    if s.writeInProgress then some { s with strand := .idle }
    else some { s with drainBatch := [], strand := .drain }
  | .drain =>
    match s.writeQueue with
    | entry :: rest => some { s with writeQueue := rest, drainBatch := s.drainBatch ++ [entry] }
    | [] =>
      if s.drainBatch = [] then some { s with strand := .idle }
      else some { s with strand := .idle, writeInProgress := true, writing := s.writing + 1
                         issued := s.issued ++ [s.drainBatch] }
  | .checkEmpty => some { s with strand := if s.writeQueue = [] then .idle else .flush }

def step (s : BaseSocket) : SocketChoice → Option BaseSocket
  | .push =>
    some { s with writeQueue := s.writeQueue ++ [s.enqueued], enqueued := s.enqueued + 1
                  pushing := s.pushing + 1 }
  | .post =>
    if 0 < s.pushing then some { s with pushing := s.pushing - 1, posted := s.posted + 1 }
    else none
  | .startFlush =>
    if s.strand = .idle ∧ 0 < s.posted then
      some { s with posted := s.posted - 1, strand := .flush }
    else none
  | .startHandler =>
    if s.strand = .idle ∧ 0 < s.handlers then
      some { s with handlers := s.handlers - 1, strand := .checkEmpty, writeInProgress := false
                    deleted := s.deleted ++ s.drainBatch, drainBatch := [] }
    else none
  | .proceed => s.proceed
  | .succeed =>
    if 0 < s.writing then
      some { s with writing := s.writing - 1, handlers := s.handlers + 1
                    completed := s.completed + 1 }
    else none

/-- The entries that the running flush has popped. -/
def drained (s : BaseSocket) : List ℕ := if s.strand = .drain then s.drainBatch else []

def beingWritten (s : BaseSocket) : List (List ℕ) :=
  if s.writeInProgress then [s.drainBatch] else []

/-- `drain_batch_` belongs to the write in progress or to the running flush, and an entry in the
queue is left to someone who has yet to look there. -/
structure Consistent (s : BaseSocket) : Prop where
  order : s.issued.flatten ++ s.drained ++ s.writeQueue = range s.enqueued
  deleted : ∃ done, s.issued = done ++ s.beingWritten ∧ s.deleted = done.flatten
  outstanding : s.writing + s.handlers = s.beingWritten.length
  completed : s.completed + s.writing = s.issued.length
  writing : s.writeInProgress = true → s.strand = .idle ∨ s.strand = .flush
  batch : s.writeInProgress = false → s.strand ≠ .drain → s.drainBatch = []
  pending : s.writeQueue ≠ [] →
    0 < s.pushing ∨ 0 < s.posted ∨ s.strand ≠ .idle ∨ s.writeInProgress = true

namespace Consistent

variable {s s' : BaseSocket}

theorem proceed (h : Consistent s) (hs : s.proceed = some s') : Consistent s' := by
  rcases s with ⟨queue, batch, progress, strand⟩
  cases strand with
  | idle => cases hs
  | flush =>
    cases progress with
    | true | false =>
      cases hs
      exact ⟨h.order, h.deleted, h.outstanding, h.completed, by simp, by simp, by simp⟩
  | drain =>
    cases progress with
    | true => simpa using h.writing rfl
    | false =>
      cases queue with
      | cons entry rest =>
        cases hs
        have horder := h.order
        exact ⟨by simpa [drained] using horder, h.deleted, h.outstanding, h.completed, by simp,
          by simp, by simp⟩
      | nil =>
        simp only [BaseSocket.proceed] at hs
        split at hs <;> cases hs
        · rename_i hempty
          subst hempty
          exact ⟨h.order, h.deleted, h.outstanding, h.completed, by simp, by simp, by simp⟩
        · have horder := h.order
          have houtstanding := h.outstanding
          have hcompleted := h.completed
          refine ⟨by simpa [drained] using horder, by simpa [beingWritten] using h.deleted, ?_, ?_,
            by simp, by simp, by simp⟩
          · simp only [beingWritten, Bool.false_eq_true, if_false, if_true, length_nil,
              length_singleton] at houtstanding ⊢
            omega
          · simp only [length_append, length_singleton] at hcompleted ⊢
            omega
  | checkEmpty =>
    cases progress with
    | true => simpa using h.writing rfl
    | false =>
      cases hs
      have hempty : batch = [] := h.batch rfl (by simp)
      refine ⟨?_, h.deleted, h.outstanding, h.completed, by simp, fun _ _ => hempty, ?_⟩
      · subst hempty
        simpa [drained] using h.order
      · intro hne
        simp [hne]

theorem step {choice : SocketChoice} (h : Consistent s) (hs : s.step choice = some s') :
    Consistent s' := by
  cases choice with
  | push =>
    cases hs
    refine ⟨?_, h.deleted, h.outstanding, h.completed, h.writing, h.batch, by simp⟩
    rw [range_succ, ← h.order]
    simp [drained]
  | post =>
    obtain ⟨-, ⟨⟩⟩ := Option.ite_none_right_eq_some.mp hs
    exact ⟨h.order, h.deleted, h.outstanding, h.completed, h.writing, h.batch, by simp⟩
  | startFlush =>
    obtain ⟨hidle, ⟨⟩⟩ := Option.ite_none_right_eq_some.mp hs
    exact ⟨by simpa [drained, hidle.1] using h.order, h.deleted, h.outstanding, h.completed,
      by simp, fun hfalse _ => h.batch hfalse (by simp [hidle.1]), by simp⟩
  | startHandler =>
    obtain ⟨hidle, ⟨⟩⟩ := Option.ite_none_right_eq_some.mp hs
    obtain ⟨done, hissued, hdone⟩ := h.deleted
    have houtstanding := h.outstanding
    -- the handler belongs to the write in progress
    have hprogress : s.writeInProgress = true := by
      rw [← Bool.not_eq_false]
      intro hfalse
      simp only [beingWritten, hfalse, Bool.false_eq_true, if_false, length_nil] at houtstanding
      omega
    simp only [beingWritten, hprogress, if_true, length_singleton] at hissued houtstanding
    refine ⟨by simpa [drained, hidle.1] using h.order, ⟨s.issued, ?_, ?_⟩, ?_, h.completed,
      by simp, by simp, by simp⟩
    · simp [beingWritten]
    · simp [hissued, hdone]
    · simp only [beingWritten, Bool.false_eq_true, if_false, length_nil]
      omega
  | proceed => exact h.proceed hs
  | succeed =>
    obtain ⟨hwriting, ⟨⟩⟩ := Option.ite_none_right_eq_some.mp hs
    have houtstanding := h.outstanding
    have hcompleted := h.completed
    refine ⟨h.order, h.deleted, ?_, ?_, h.writing, h.batch, h.pending⟩
    · change s.writing - 1 + (s.handlers + 1) = s.beingWritten.length
      omega
    · change s.completed + 1 + (s.writing - 1) = s.issued.length
      omega

theorem reached (h : Reaches BaseSocket.step (fun _ _ => True) {} s) : Consistent s :=
  h.invariant ⟨rfl, ⟨[], rfl, rfl⟩, rfl, rfl, by simp, by simp, by simp⟩ fun hs _ => hs.step

end Consistent

/-- In every state that is reached, at most one write is outstanding, the writes have the
entries in the order in which they were pushed, and those of writes that have succeeded are
deleted. When no caller has yet to post, the strand has nothing to do and no write is
outstanding, every entry has been written, and deleted. -/
theorem write_queue_keeps_entries {s : BaseSocket}
    (h : Reaches BaseSocket.step (fun _ _ => True) {} s) :
    s.writing + s.handlers ≤ 1 ∧
      s.issued.flatten ++ s.drained ++ s.writeQueue = range s.enqueued ∧
      (∃ k ≤ s.completed, s.deleted = (s.issued.take k).flatten) ∧
      (s.pushing = 0 → s.posted = 0 → s.strand = .idle → s.writing + s.handlers = 0 →
        s.writeQueue = [] ∧ s.issued.flatten = range s.enqueued ∧
          s.deleted = range s.enqueued) := by
  have hs := Consistent.reached h
  obtain ⟨done, hissued, hdone⟩ := hs.deleted
  have houtstanding := hs.outstanding
  have hcompleted := hs.completed
  have hlength : s.beingWritten.length ≤ 1 := by
    unfold beingWritten
    split <;> simp
  refine ⟨by omega, hs.order, ⟨done.length, ?_, by simp [hissued, hdone]⟩,
    fun hpushing hposted hidle hnone => ?_⟩
  · have hle := congrArg length hissued
    rw [length_append] at hle
    omega
  · have hprogress : s.writeInProgress = false := by
      rw [← Bool.not_eq_true]
      intro htrue
      simp only [beingWritten, htrue, if_true, length_singleton] at houtstanding
      omega
    have hempty : s.writeQueue = [] := by
      by_contra hne
      simpa [hpushing, hposted, hidle, hprogress] using hs.pending hne
    have horder : s.issued.flatten = range s.enqueued := by
      simpa [drained, hidle, hempty] using hs.order
    refine ⟨hempty, horder, ?_⟩
    rw [← horder, hdone, hissued]
    simp [beingWritten, hprogress]

/-- Two entries are written, one after the other. -/
theorem write_queue_keeps_entries_two :
    ∃ s, Reaches BaseSocket.step (fun _ _ => True) {} s ∧ s.issued = [[0], [1]] ∧
      s.deleted = range s.enqueued := by
  have hexec : (execSteps BaseSocket.step (fun _ _ => true) {} [.push, .post, .startFlush,
      .proceed, .proceed, .proceed, .push, .post, .startFlush, .proceed, .succeed, .startHandler,
      .proceed, .proceed, .proceed, .proceed, .succeed, .startHandler, .proceed]).any (fun s =>
        decide (s.issued = [[0], [1]] ∧ s.pushing = 0 ∧ s.posted = 0 ∧ s.strand = .idle ∧
          s.writing + s.handlers = 0)) = true := by decide
  obtain ⟨s, hrun, htest⟩ := Reaches.of_execSteps_any hexec
  obtain ⟨hissued, hpushing, hposted, hidle, hnone⟩ := of_decide_eq_true htest
  have hreached := hrun.always
  exact ⟨s, hreached, hissued,
    ((write_queue_keeps_entries hreached).2.2.2 hpushing hposted hidle hnone).2.2⟩

/-- Between its two steps, the queue is not empty and nobody else will look at it. -/
theorem write_queue_unattended :
    ∃ s, Reaches BaseSocket.step (fun _ _ => True) {} s ∧ s.strand = .idle ∧ s.posted = 0 ∧
      s.writing + s.handlers = 0 ∧ s.writeQueue ≠ [] :=
  ⟨_, .tail .refl trivial (rfl : BaseSocket.step {} .push = _), rfl, rfl, rfl, by simp⟩

end BaseSocket

end HazelcastClient.Network
