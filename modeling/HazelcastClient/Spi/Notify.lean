import HazelcastClient.Spi.Send

/-!
# Notifying an invocation

Responses, errors and closed connections compete for the right to notify an
invocation; `get_permission_to_notify` gives it to the one whose
compare-exchange empties `send_connection_`. A response completes the promise or
waits for backup acks, an exception starts a retry or fails the promise.
-/

namespace HazelcastClient.Spi

open Interleaving

def Cause.resume (i : InvId) : Cause → Frame
  | .response r => .responding i r .compare
  | .serverError e => .failing i (.readId e)
  | .connectionClosed _ => .failing i (.readId targetDisconnected)

/-- One step of `get_permission_to_notify`. -/
def firePermission (s : Client) (i : InvId) (k : CorrId) (cause : Cause) :
    Permission → Option ServiceEffect
  | .load =>
    match (s.invocation i).sendConnection with
    | none => some { shared := s }
    | some x => some { shared := s, next := [.permission i k cause (.readId x.address)] }
  | .readId address =>
    if k = s.currentId i then
      some { shared := s, next := [.permission i k cause (.cas address)] }
    else some { shared := s }
  | .cas address =>
    if (s.invocation i).sendConnection.map Holder.address = some address then
      some {
        shared := s.update i fun v => { v with sendConnection := none }
        next := [cause.resume i]
        event := some (.granted i k address cause) }
    else some { shared := s }

/-- `set_value(r)`; the event tells that the promise was open. -/
def setValue (s : Client) (i : InvId) (r : Response) (next : List Frame) : ServiceEffect where
  shared := s.update i (·.satisfy (.value r))
  next := next
  event := if (s.invocation i).promise = none then some (.completed i r) else none

/-- One step of `notify_response`. -/
def fireResponding (s : Client) (i : InvId) (r : Response) : Responding → Option ServiceEffect
  | .compare =>
    if r.numberOfBackups > (s.invocation i).backupAcksReceived then
      some { shared := s, next := [.responding i r .storeTime] }
    else some { shared := s, next := [.responding i r (.complete false)] }
  | .storeTime =>
    some {
      shared := s.update i fun v => { v with pendingResponseReceivedTime := s.now }
      next := [.responding i r .storeExpected] }
  | .storeExpected =>
    some {
      shared := s.update i fun v => { v with backupAcksExpected := r.numberOfBackups }
      next := [.responding i r .storePending] }
  | .storePending =>
    some {
      shared := s.update i fun v => { v with pendingResponse := some r }
      next := [.responding i r .recheck] }
  | .recheck =>
    if (s.invocation i).backupAcksReceived ≠ r.numberOfBackups then some { shared := s }
    else some { shared := s, next := [.responding i r (.complete true)] }
  | .complete _ => some (setValue s i r [.completion i .readId])

/-- One step of `notify_backup`, for the ack with the source id `k`. -/
def fireBackup (s : Client) (choice : Choice) (k : CorrId) (i : InvId) :
    Backup → Option ServiceEffect
  | .increment =>
    some {
      shared := s.update i fun v => { v with backupAcksReceived := v.backupAcksReceived + 1 }
      next := [.backup k i .loadPending] }
  | .loadPending =>
    match (s.invocation i).pendingResponse with
    | none => some { shared := s }
    | some _ => some { shared := s, next := [.backup k i .readAcks] }
  | .readAcks =>
    match choice with
    | .flag true =>
      some {
        shared := s
        next := [.backup k i (.readReceived (s.invocation i).backupAcksExpected)] }
    | .flag false =>
      some {
        shared := s
        next := [.backup k i (.readExpected (s.invocation i).backupAcksReceived)] }
    | _ => none
  | .readReceived expected =>
    if expected ≠ (s.invocation i).backupAcksReceived then some { shared := s }
    else some { shared := s, next := [.backup k i .complete] }
  | .readExpected received =>
    if (s.invocation i).backupAcksExpected ≠ received then some { shared := s }
    else some { shared := s, next := [.backup k i .complete] }
  | .complete =>
    (s.invocation i).pendingResponse.map fun r => setValue s i r [.completion i .readId]

/-- One step of `erase_invocation` after `complete`. -/
def fireCompletion (s : Client) (i : InvId) : Completion → Option ServiceEffect
  | .readId => some { shared := s, next := [.completion i (.eraseKey (s.currentId i))] }
  | .eraseKey k => some { shared := s.deregister k }

def shouldRetry (settings : Settings) (request : Request) (e : IException) : Bool :=
  if request.boundToSingleConnection ∧
      (e.errorCode = .io ∨ e.errorCode = .targetDisconnected) then false
  else if request.hasUuid ∧ e.errorCode = .targetNotMember then false
  else if e.errorCode = .io ∨ e.errorCode = .hazelcastInstanceNotActive ∨ e.isRetryable then true
  else if e.errorCode = .targetDisconnected then request.isRetryable || settings.redoOperation
  else false

/-- What `notify_exception_with_owned_permission` decides after the erase. -/
def decideException (s : Client) (i : InvId) (e : IException) : Failing :=
  if ¬ s.isRunning then .setReadId hazelcastClientNotActive
  else if ¬ shouldRetry s.settings (s.invocation i).request e then .setReadId e
  else if s.settings.invocationTimeout < s.now - (s.invocation i).startTime then
    .setReadId ⟨.operationTimeout, false⟩
  else .execute

/-- `execute` writes a fresh correlation id into the current message and leaves
the rest to a task. -/
def Client.forceNext (s : Client) (i : InvId) : Client :=
  { s.update i (·.setCorrelationId s.nextCallId) with nextCallId := s.nextCallId + 1 }

/-- One step of `notify_exception_with_owned_permission`, `execute` or
`set_exception`. -/
def fireFailing (s : Client) (i : InvId) : Failing → Option ServiceEffect
  | .readId e => some { shared := s, next := [.failing i (.eraseKey e (s.currentId i))] }
  | .eraseKey e k => some { shared := s.deregister k, next := [.failing i (.handle e)] }
  | .handle e => some { shared := s, next := [.failing i (decideException s i e)] }
  | .execute =>
    some {
      shared := s.forceNext i
      spawned := [⟨.executor, [.launch i .retry]⟩]
      event := some (.retried i s.nextCallId) }
  | .setReadId e => some { shared := s, next := [.failing i (.setErase e (s.currentId i))] }
  | .setErase e k => some { shared := s.deregister k, next := [.failing i (.setPromise e)] }
  | .setPromise e => some { shared := s.update i (·.satisfy (.exception e)) }

/-- The lookup in `process_response`. -/
def fireProcess (s : Client) (m : ServerMessage) : Option ServiceEffect :=
  match s.invocations m.requestId with
  | none => some { shared := s }
  | some i =>
    match m with
    | .response r =>
      some { shared := s, next := [.permission i r.correlationId (.response r) .load] }
    | .error k e => some { shared := s, next := [.permission i k (.serverError e) .load] }
    | .backupAck k => some { shared := s, next := [.backup k i .increment] }

end HazelcastClient.Spi
