import HazelcastClient.Spi.Notify

/-!
# The backup timeouts and the map

`check_backup_timeouts` calls `detect_and_handle_backup_timeout` from inside of
`invocations_.erase_if`, where the map must not be accessed. The flag `erase` keeps
`complete` and `notify_exception_with_owned_permission` from it, but `set_exception`
deregisters the invocation in any case.
-/

namespace HazelcastClient.Spi

open List

inductive MapAccess where
  | insert (k : CorrId)
  | erase (k : CorrId)
  | visit (k : CorrId)
  deriving DecidableEq

namespace Invocation

/-- The accesses of `erase_invocation`, and of `deregister_invocation` in `set_exception`. -/
def deregisters (v : Invocation) : List MapAccess := [.erase v.correlationId]

def completes (v : Invocation) (erase : Bool) : List MapAccess :=
  if erase then v.deregisters else []

/-- The accesses of `notify_exception_with_owned_permission`. `execute` has none, it posts
the next attempt; if it throws, the exception is set. -/
def notifiesException (s : Client) (v : Invocation) (e : IException) (erase executeThrows : Bool) :
    List MapAccess :=
  v.completes erase ++
    if ¬ s.isRunning then v.deregisters
    else if ¬ shouldRetry s.settings v.request e then v.deregisters
    else if s.settings.invocationTimeout < s.now - v.startTime then v.deregisters
    else if executeThrows then v.deregisters
    else []

/-- The result of `detect_and_handle_backup_timeout` and its accesses. -/
def detectAndHandleBackupTimeout (s : Client) (executeThrows : Bool) (v : Invocation) :
    Bool × List MapAccess :=
  if v.backupAcksExpected = v.backupAcksReceived then (false, [])
  else if v.pendingResponse = none then (false, [])
  else if v.pendingResponseReceivedTime + s.settings.backupTimeout ≥ s.now then (false, [])
  else if s.settings.failOnIndeterminateState then
    (true, v.notifiesException s ⟨.indeterminateOperationState, false⟩ false executeThrows)
  else (true, v.completes false)

/-- The response waits for acks, and has waited too long. -/
structure Overdue (s : Client) (v : Invocation) : Prop where
  acks : v.backupAcksExpected ≠ v.backupAcksReceived
  pending : v.pendingResponse ≠ none
  time : v.pendingResponseReceivedTime + s.settings.backupTimeout < s.now

end Invocation

/-- What the predicate does to the map while it is called for the entries of the map. -/
def checkBackupTimeouts (s : Client) (executeThrows : Bool)
    (entries : List (CorrId × Invocation)) : List MapAccess :=
  entries.flatMap fun entry => (entry.2.detectAndHandleBackupTimeout s executeThrows).2

/-- Nobody retries an operation whose state is indeterminate, so the exception is set. -/
theorem Invocation.notifiesException_indeterminate (s : Client) (v : Invocation)
    (executeThrows : Bool) :
    v.notifiesException s ⟨.indeterminateOperationState, false⟩ false executeThrows =
      v.deregisters := by
  have hretry : shouldRetry s.settings v.request ⟨.indeterminateOperationState, false⟩ = false := by
    simp [shouldRetry]
  simp [notifiesException, completes, hretry]

theorem Invocation.accesses_nil_iff (s : Client) (executeThrows : Bool) (v : Invocation) :
    (v.detectAndHandleBackupTimeout s executeThrows).2 = [] ↔
      (s.settings.failOnIndeterminateState → ¬ v.Overdue s) := by
  unfold detectAndHandleBackupTimeout
  split
  · rename_i hacks
    exact iff_of_true rfl fun _ h => h.acks hacks
  · split
    · rename_i hpending
      exact iff_of_true rfl fun _ h => h.pending hpending
    · split
      · rename_i htime
        exact iff_of_true rfl fun _ h => htime.not_gt h.time
      · rename_i hacks hpending htime
        have hoverdue : v.Overdue s := ⟨hacks, hpending, not_le.mp htime⟩
        split
        · rename_i hfail
          rw [notifiesException_indeterminate]
          exact iff_of_false (cons_ne_nil _ _) fun h => h hfail hoverdue
        · rename_i hfail
          exact iff_of_true rfl fun h => absurd h hfail

/-- The sweep leaves the map alone exactly when the client does not fail on an indeterminate
state, or no entry of the map is overdue. -/
theorem sweep_untouched_iff (s : Client) (executeThrows : Bool)
    (entries : List (CorrId × Invocation)) :
    checkBackupTimeouts s executeThrows entries = [] ↔
      (s.settings.failOnIndeterminateState → ∀ entry ∈ entries, ¬ entry.2.Overdue s) := by
  unfold checkBackupTimeouts
  rw [flatMap_eq_nil_iff]
  constructor
  · intro h hfail entry hentry
    exact (Invocation.accesses_nil_iff s executeThrows entry.2).mp (h entry hentry) hfail
  · intro h entry hentry
    exact (Invocation.accesses_nil_iff s executeThrows entry.2).mpr fun hfail =>
      h hfail entry hentry

/-- A running client that fails on an indeterminate state: its only invocation has waited for
an ack for 5001 ms. -/
theorem sweep_erases :
    checkBackupTimeouts { settings := { failOnIndeterminateState := true }, now := 5001 } false
      [(7, { correlationIds := fun _ => 7, backupAcksExpected := 1,
             pendingResponse := some ⟨7, 1⟩ })] = [.erase 7] := by
  decide

end HazelcastClient.Spi
