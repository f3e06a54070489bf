import Mathlib.Data.Int.Notation
import Mathlib.Data.List.Basic

/-!
# The shared state of the invocation service

`Client` holds what the threads of a client share: the invocations with their
atomic fields, the map `invocations_`, the connections with their write queues,
and the flags of the shutdown sequence. Message objects are numbered for each
invocation; `correlationIds m` is the correlation id in the bytes of the object
`m`, and `clientMessage` is the object that `client_message_` points to.

A `send_connection_` is null or a holder, a heap object with an address of its
own. The constructor of an invocation stores a holder without a connection.
-/

namespace HazelcastClient.Spi

abbrev InvId := ℕ
abbrev ConnId := ℕ
abbrev CorrId := ℕ

inductive ErrorCode where
  | io
  | targetDisconnected
  | targetNotMember
  | hazelcastInstanceNotActive
  | hazelcastClientOffline
  | operationTimeout
  | indeterminateOperationState
  | other (code : ℕ)
  deriving DecidableEq

structure IException where
  errorCode : ErrorCode
  isRetryable : Bool := false
  deriving DecidableEq

/-- `hazelcast_client_not_active` has the code of an inactive instance. -/
def hazelcastClientNotActive : IException := ⟨.hazelcastInstanceNotActive, false⟩

/-- A response with its `get_number_of_backups`. -/
structure Response where
  correlationId : CorrId
  numberOfBackups : ℤ
  deriving DecidableEq

inductive Outcome where
  | value (r : Response)
  | exception (e : IException)
  deriving DecidableEq

/-- The object that `send_connection_` points to. -/
structure Holder where
  address : ℕ
  connection : Option ConnId
  deriving DecidableEq

structure Request where
  boundToSingleConnection : Bool := false
  hasUuid : Bool := false
  isRetryable : Bool := false
  deriving DecidableEq

/-- `ClientInvocation`. -/
structure Invocation where
  request : Request := {}
  startTime : ℕ := 0
  clientMessage : ℕ := 0
  correlationIds : ℕ → CorrId := fun _ => 0
  sendConnection : Option Holder := none
  invokeCount : ℕ := 0
  backupAcksReceived : ℤ := 0
  backupAcksExpected : ℤ := -1
  pendingResponse : Option Response := none
  pendingResponseReceivedTime : ℕ := 0
  promise : Option Outcome := none

namespace Invocation

def correlationId (v : Invocation) : CorrId := v.correlationIds v.clientMessage

def setSendConnection (v : Invocation) (x : Holder) : Invocation :=
  { v with sendConnection := some x }

/-- `set_value` or `set_exception`: the first one wins, a later one is dropped. -/
def satisfy (v : Invocation) (o : Outcome) : Invocation :=
  { v with promise := v.promise.or (some o) }

def setCorrelationId (v : Invocation) (k : CorrId) : Invocation :=
  { v with correlationIds := Function.update v.correlationIds v.clientMessage k }

/-- `client_message_ = copy_message()`. -/
def copyMessage (v : Invocation) : Invocation :=
  { v with
    clientMessage := v.clientMessage + 1
    correlationIds := Function.update v.correlationIds (v.clientMessage + 1) v.correlationId }

end Invocation

/-- `OutboundEntry`: the captured id, and the message as an object of an
invocation. -/
structure OutboundEntry where
  correlationId : CorrId
  invocation : InvId
  message : ℕ
  deriving DecidableEq

structure Settings where
  invocationTimeout : ℕ := 120000
  backupTimeout : ℕ := 5000
  redoOperation : Bool := false
  failOnIndeterminateState : Bool := false
  deriving DecidableEq

structure Client where
  settings : Settings := {}
  /-- The number of invocations made so far. -/
  created : ℕ := 0
  invocation : InvId → Invocation := fun _ => {}
  invocations : CorrId → Option InvId := fun _ => none
  nextCallId : CorrId := 1
  nextAddress : ℕ := 0
  alive : List ConnId := []
  writeQueue : ConnId → List OutboundEntry := fun _ => []
  drainBatch : ConnId → List OutboundEntry := fun _ => []
  writeInProgress : ConnId → Bool := fun _ => false
  /-- The correlation ids that members have read from the wire. -/
  received : List CorrId := []
  now : ℕ := 0
  isRunning : Bool := true
  isShutdown : Bool := false
  ioJoined : Bool := false
  responsesJoined : Bool := false
  executorJoined : Bool := false

namespace Client

def update (s : Client) (i : InvId) (g : Invocation → Invocation) : Client :=
  { s with invocation := Function.update s.invocation i (g (s.invocation i)) }

/-- `register_invocation`. -/
def register (s : Client) (k : CorrId) (i : InvId) : Client :=
  { s with invocations := Function.update s.invocations k (some i) }

/-- `deregister_invocation`. -/
def deregister (s : Client) (k : CorrId) : Client :=
  { s with invocations := Function.update s.invocations k none }

def currentId (s : Client) (i : InvId) : CorrId := (s.invocation i).correlationId

/-- The keys of `invocations_`. -/
def keys (s : Client) : List CorrId :=
  (List.range s.nextCallId).filter fun k => (s.invocations k).isSome

@[simp] theorem update_invocation_self (s : Client) (i : InvId) (g : Invocation → Invocation) :
    (s.update i g).invocation i = g (s.invocation i) := by
  simp [update]

theorem update_invocation_of_ne (s : Client) {i j : InvId} (g : Invocation → Invocation)
    (h : j ≠ i) : (s.update i g).invocation j = s.invocation j := by
  simp [update, h]

@[simp] theorem register_invocations_self (s : Client) (k : CorrId) (i : InvId) :
    (s.register k i).invocations k = some i := by
  simp [register]

theorem register_invocations_of_ne (s : Client) {k l : CorrId} (i : InvId) (h : l ≠ k) :
    (s.register k i).invocations l = s.invocations l := by
  simp [register, h]

@[simp] theorem deregister_invocations_self (s : Client) (k : CorrId) :
    (s.deregister k).invocations k = none := by
  simp [deregister]

theorem deregister_invocations_of_ne (s : Client) {k l : CorrId} (h : l ≠ k) :
    (s.deregister k).invocations l = s.invocations l := by
  simp [deregister, h]

end Client

end HazelcastClient.Spi
