import HazelcastClient.Spi.Close

/-!
# The invocation service as a machine

`service` puts the step functions together. The environment starts calls of
`invoke` and `shutdown`, closes connections (a handler of the connection manager
or a task of the executor does), runs the periodic sweep and lets time pass. A
member reads the requests of a batch that is being written, and only sends messages
for the correlation ids that it has read.
-/

namespace HazelcastClient.Spi

open Interleaving

def fire (s : Client) (others : List ServiceThread) (choice : Choice) :
    Frame → Option ServiceEffect
  | .launch i pc => fireLaunch s choice i pc
  | .sent i c pc => fireSent s i c pc
  | .permission i k cause pc => firePermission s i k cause pc
  | .responding i r pc => fireResponding s i r pc
  | .backup k i pc => fireBackup s choice k i pc
  | .completion i pc => fireCompletion s i pc
  | .failing i pc => fireFailing s i pc
  | .processResponse m => fireProcess s m
  | .closing c pc => fireClosing s choice c pc
  | .sweeping pc => fireSweeping s choice pc
  | .socket c pc => fireSocket s choice c pc
  | .shutdown pc => fireShutdown s others choice pc

/-- The constructor of an invocation, and the correlation id that `invoke` sets. -/
def newInvocation (s : Client) (request : Request) : Invocation where
  request := request
  startTime := s.now
  correlationIds := fun _ => s.nextCallId
  sendConnection := some ⟨s.nextAddress, none⟩

/-- A call of `invoke`. -/
def Client.invoke (s : Client) (request : Request) : Client :=
  { s with
    created := s.created + 1
    invocation := Function.update s.invocation s.created (newInvocation s request)
    nextCallId := s.nextCallId + 1
    nextAddress := s.nextAddress + 1 }

def Client.bytesId (s : Client) (entry : OutboundEntry) : CorrId :=
  (s.invocation entry.invocation).correlationIds entry.message

def outside (s : Client) : Choice → Option ServiceEffect
  | .invoke request =>
    some {
      shared := s.invoke request
      spawned := [⟨.user, [.launch s.created .select]⟩]
      event := some (.invoked s.created) }
  | .memberReads c n =>
    if s.writeInProgress c then
      (s.drainBatch c)[n]?.map fun entry =>
        { shared := { s with received := s.bytesId entry :: s.received } }
    else none
  | .arrive m =>
    if m.requestId ∈ s.received ∧ s.ioJoined = false then
      some {
        shared := s
        spawned := [⟨.response, [.processResponse m]⟩]
        event := some (.arrived m) }
    else none
  | .close c =>
    if s.ioJoined then none
    else some { shared := s, spawned := [⟨.io, [.closing c .cas]⟩] }
  | .heartbeatStopped c =>
    if s.executorJoined then none
    else some { shared := s, spawned := [⟨.executor, [.closing c .cas]⟩] }
  | .sweep =>
    if s.executorJoined then none
    else some { shared := s, spawned := [⟨.executor, [.sweeping .start]⟩] }
  | .tick => some { shared := { s with now := s.now + 1 } }
  | .shutdown => some { shared := s, spawned := [⟨.user, [.shutdown .compareExchange]⟩] }
  | _ => none

def service : Machine Client Pool Frame Choice Event where
  fire := fire
  outside := outside

def start (settings : Settings) (alive : List ConnId) : ServiceConfig :=
  ⟨{ settings := settings, alive := alive }, []⟩

end HazelcastClient.Spi
