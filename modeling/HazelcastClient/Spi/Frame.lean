import HazelcastClient.Interleaving.Machine
import HazelcastClient.Spi.State

/-!
# Threads of the invocation service

A frame is a call that is under way: the function, the place in it and its local
variables. Every place is in front of one atomic access to the shared state. The
calls of one function form one type of places; the step functions of the
following modules say what each of them does.
-/

namespace HazelcastClient.Spi

open Interleaving

/-- A message from a member, as `ClientResponseHandler::accept` queues it. -/
inductive ServerMessage where
  | response (r : Response)
  | error (k : CorrId) (e : IException)
  | backupAck (source : CorrId)
  deriving DecidableEq

def ServerMessage.requestId : ServerMessage → CorrId
  | response r => r.correlationId
  | error k _ => k
  | backupAck k => k

/-- On whose behalf `get_permission_to_notify` is called. -/
inductive Cause where
  | response (r : Response)
  | serverError (e : IException)
  | connectionClosed (c : ConnId)
  deriving DecidableEq

/-- `retry`, `invoke_on_selection`, and `send` up to `set_send_connection`. -/
inductive Launch where
  | retry
  | select
  | trySend (candidates : List ConnId)
  | checkAlive (c : ConnId) (candidates : List ConnId)
  | register (c : ConnId)
  | insert (c : ConnId) (k : CorrId)
  | publish (c : ConnId) (k : CorrId)
  deriving DecidableEq

/-- `send` after `set_send_connection`, and `Connection::write`. -/
inductive Sent where
  | recheck (k : CorrId)
  | write
  | readId (m : ℕ)
  | enqueue (m : ℕ) (k : CorrId)
  deriving DecidableEq

/-- `get_permission_to_notify`. -/
inductive Permission where
  | load
  | readId (address : ℕ)
  | cas (address : ℕ)
  deriving DecidableEq

/-- `notify_response`; `waited` tells whether it has stored the response as
pending before it completes. -/
inductive Responding where
  | compare
  | storeTime
  | storeExpected
  | storePending
  | recheck
  | complete (waited : Bool)
  deriving DecidableEq

/-- `notify_backup`. The two operands of its comparison are read in any order. -/
inductive Backup where
  | increment
  | loadPending
  | readAcks
  | readReceived (expected : ℤ)
  | readExpected (received : ℤ)
  | complete
  deriving DecidableEq

/-- `erase_invocation` at the end of `complete`. -/
inductive Completion where
  | readId
  | eraseKey (k : CorrId)
  deriving DecidableEq

/-- `notify_exception_with_owned_permission`, `execute` and `set_exception`. -/
inductive Failing where
  | readId (e : IException)
  | eraseKey (e : IException) (k : CorrId)
  | handle (e : IException)
  | execute
  | setReadId (e : IException)
  | setErase (e : IException) (k : CorrId)
  | setPromise (e : IException)
  deriving DecidableEq

/-- `Connection::close` and `notify_connection_closed`. -/
inductive Closing where
  | cas
  | startVisit
  | visit (todo : List CorrId) (toFail : List (CorrId × InvId))
  | failNext (toFail : List (CorrId × InvId))
  | deregister (k : CorrId) (i : InvId)
  deriving DecidableEq

/-- `check_backup_timeouts` and `detect_and_handle_backup_timeout`. -/
inductive Sweeping where
  | start
  | visit (todo : List CorrId)
  | readAcks (k : CorrId) (i : InvId)
  | readReceived (k : CorrId) (i : InvId) (expected : ℤ)
  | readExpected (k : CorrId) (i : InvId) (received : ℤ)
  | loadPending (k : CorrId) (i : InvId)
  | loadTime (k : CorrId) (i : InvId)
  | complete (k : CorrId) (i : InvId)
  | eraseKey (k : CorrId) (i : InvId)
  | blocked
  deriving DecidableEq

inductive Socket where
  | flush
  | completed
  | drain
  deriving DecidableEq

inductive Shutdown where
  | compareExchange
  | closeConnections
  | joinIo
  | setShutdown
  | joinResponses
  | joinExecutor
  deriving DecidableEq

inductive Frame where
  | launch (i : InvId) (pc : Launch)
  | sent (i : InvId) (c : ConnId) (pc : Sent)
  | permission (i : InvId) (k : CorrId) (cause : Cause) (pc : Permission)
  | responding (i : InvId) (r : Response) (pc : Responding)
  | backup (k : CorrId) (i : InvId) (pc : Backup)
  | completion (i : InvId) (pc : Completion)
  | failing (i : InvId) (pc : Failing)
  | processResponse (m : ServerMessage)
  | closing (c : ConnId) (pc : Closing)
  | sweeping (pc : Sweeping)
  | socket (c : ConnId) (pc : Socket)
  | shutdown (pc : Shutdown)
  deriving DecidableEq

/-- Where a thread comes from: a caller of `invoke` or `shutdown`, the threads of
the connection manager, the response handler, the internal executor. -/
inductive Pool where
  | user
  | io
  | response
  | executor
  deriving DecidableEq

inductive Choice where
  | go
  | flag (b : Bool)
  | key (k : CorrId)
  | candidates (cs : List ConnId)
  | refuse (e : IException)
  | connection (c : ConnId)
  | invoke (request : Request)
  | arrive (m : ServerMessage)
  | close (c : ConnId)
  | heartbeatStopped (c : ConnId)
  | sweep
  | tick
  | memberReads (c : ConnId) (n : ℕ)
  | shutdown
  deriving DecidableEq

inductive Event where
  | invoked (i : InvId)
  | published (i : InvId) (address : ℕ) (c : ConnId)
  | granted (i : InvId) (k : CorrId) (address : ℕ) (cause : Cause)
  | arrived (m : ServerMessage)
  | completed (i : InvId) (r : Response)
  | retried (i : InvId) (k : CorrId)
  | shutdownStarted
  | shutdownReturned
  deriving DecidableEq

abbrev ServiceThread := Thread Pool Frame

abbrev ServiceConfig := Config Client Pool Frame

abbrev ServiceEffect := Effect Client Pool Frame Event

end HazelcastClient.Spi
