import HazelcastClient.Spi.Notify

/-!
# Closed connections, missing acks and the shutdown

`notify_connection_closed` collects the invocations that wait on a connection and
then fails them one by one; `check_backup_timeouts` completes the invocations
whose acks are late. Both visit `invocations_`: a visit sees every entry that is
there from its start to its end, and may see entries that come in the meantime.

The strand of a socket moves the write queue into a batch and writes it. The
shutdown sequence closes the connections and joins the threads pool by pool.
-/

namespace HazelcastClient.Spi

open Interleaving

/-- The entry of `k` waits on the connection `c`. -/
def waitsOn (s : Client) (c : ConnId) (k : CorrId) : Option (CorrId × InvId) :=
  (s.invocations k).bind fun i =>
    if (s.invocation i).sendConnection.bind Holder.connection = some c then some (k, i) else none

/-- One step of `Connection::close` or `notify_connection_closed`. -/
def fireClosing (s : Client) (choice : Choice) (c : ConnId) : Closing → Option ServiceEffect
  | .cas =>
    if c ∈ s.alive then
      some {
        shared := { s with alive := s.alive.filter (· ≠ c) }
        next := [.closing c .startVisit]
        spawned := [⟨.io, [.socket c .drain]⟩] }
    else some { shared := s }
  | .startVisit => some { shared := s, next := [.closing c (.visit s.keys [])] }
  | .visit todo toFail =>
    match choice with
    | .key k =>
      some {
        shared := s
        next := [.closing c (.visit (todo.filter (· ≠ k))
          (toFail ++ (waitsOn s c k).toList))] }
    | .go => if todo = [] then some { shared := s, next := [.closing c (.failNext toFail)] }
        else none
    | _ => none
  | .failNext [] => some { shared := s }
  | .failNext ((k, i) :: toFail) =>
    some { shared := s, next := [.closing c (.deregister k i), .closing c (.failNext toFail)] }
  | .deregister k i =>
    some {
      shared := s.deregister k
      next := [.permission i k (.connectionClosed c) .load] }

/-- One step of `check_backup_timeouts` or `detect_and_handle_backup_timeout`. With
`fail_on_indeterminate_state` the exception path deregisters the invocation from
inside `erase_if`, which waits for the lock that its own visit holds. -/
def fireSweeping (s : Client) (choice : Choice) : Sweeping → Option ServiceEffect
  | .start => some { shared := s, next := [.sweeping (.visit s.keys)] }
  | .visit todo =>
    match choice with
    | .key k =>
      let rest : Frame := .sweeping (.visit (todo.filter (· ≠ k)))
      match s.invocations k with
      | none => some { shared := s, next := [rest] }
      | some i => some { shared := s, next := [.sweeping (.readAcks k i), rest] }
    | .go => if todo = [] then some { shared := s } else none
    | _ => none
  | .readAcks k i =>
    match choice with
    | .flag true =>
      some {
        shared := s
        next := [.sweeping (.readReceived k i (s.invocation i).backupAcksExpected)] }
    | .flag false =>
      some {
        shared := s
        next := [.sweeping (.readExpected k i (s.invocation i).backupAcksReceived)] }
    | _ => none
  | .readReceived k i expected =>
    if expected = (s.invocation i).backupAcksReceived then some { shared := s }
    else some { shared := s, next := [.sweeping (.loadPending k i)] }
  | .readExpected k i received =>
    if (s.invocation i).backupAcksExpected = received then some { shared := s }
    else some { shared := s, next := [.sweeping (.loadPending k i)] }
  | .loadPending k i =>
    match (s.invocation i).pendingResponse with
    | none => some { shared := s }
    | some _ => some { shared := s, next := [.sweeping (.loadTime k i)] }
  | .loadTime k i =>
    if (s.invocation i).pendingResponseReceivedTime + s.settings.backupTimeout ≥ s.now then
      some { shared := s }
    else if s.settings.failOnIndeterminateState then
      some { shared := s, next := [.sweeping .blocked] }
    else some { shared := s, next := [.sweeping (.complete k i)] }
  | .complete k i =>
    (s.invocation i).pendingResponse.map fun r =>
      { shared := s.update i (·.satisfy (.value r)), next := [.sweeping (.eraseKey k i)] }
  | .eraseKey k _ => some { shared := s.deregister k }
  | .blocked => none

/-! ## The socket -/

/-- `flush_write_queue` when no write is in progress. -/
def Client.startWrite (s : Client) (c : ConnId) : Client :=
  { s with
    drainBatch := Function.update s.drainBatch c (s.writeQueue c)
    writeQueue := Function.update s.writeQueue c []
    writeInProgress := Function.update s.writeInProgress c true }

/-- The start of the completion handler of `async_write`. -/
def Client.endWrite (s : Client) (c : ConnId) : Client :=
  { s with
    drainBatch := Function.update s.drainBatch c []
    writeInProgress := Function.update s.writeInProgress c false }

/-- `close` of the socket, and `fail_queued_writes`. -/
def Client.drainQueue (s : Client) (c : ConnId) : Client :=
  { s with writeQueue := Function.update s.writeQueue c [] }

/-- One handler on the strand. The choice tells whether the write succeeded. -/
def fireSocket (s : Client) (choice : Choice) (c : ConnId) : Socket → Option ServiceEffect
  | .flush =>
    if s.writeInProgress c ∨ s.writeQueue c = [] then some { shared := s }
    else some { shared := s.startWrite c, spawned := [⟨.io, [.socket c .completed]⟩] }
  | .completed =>
    match choice with
    | .flag true =>
      some {
        shared := s.endWrite c
        next := if s.writeQueue c = [] then [] else [.socket c .flush] }
    | .flag false =>
      some { shared := s.endWrite c, next := [.closing c .cas, .socket c .drain] }
    | _ => none
  | .drain => some { shared := s.drainQueue c }

/-! ## Shutdown -/

/-- No thread of the pool has anything left to do. -/
def joined (threads : List ServiceThread) (pool : Pool) : Bool :=
  threads.all fun t => t.pool ≠ pool ∨ t.stack = []

/-- One step of `lifecycle_service::shutdown`. -/
def fireShutdown (s : Client) (others : List ServiceThread) (choice : Choice) :
    Shutdown → Option ServiceEffect
  | .compareExchange =>
    if s.isRunning then
      some {
        shared := { s with isRunning := false }
        next := [.shutdown .closeConnections]
        event := some .shutdownStarted }
    else some { shared := s }
  | .closeConnections =>
    match choice with
    | .connection c =>
      some { shared := s, next := [.closing c .cas, .shutdown .closeConnections] }
    | .go => if s.alive = [] then some { shared := s, next := [.shutdown .joinIo] } else none
    | _ => none
  | .joinIo =>
    if joined others .io then
      some { shared := { s with ioJoined := true }, next := [.shutdown .setShutdown] }
    else none
  | .setShutdown =>
    some { shared := { s with isShutdown := true }, next := [.shutdown .joinResponses] }
  | .joinResponses =>
    if joined others .response then
      some { shared := { s with responsesJoined := true }, next := [.shutdown .joinExecutor] }
    else none
  | .joinExecutor =>
    if joined others .executor then
      some { shared := { s with executorJoined := true }, event := some .shutdownReturned }
    else none

end HazelcastClient.Spi
