import HazelcastClient.Spi.Frame

/-!
# Sending a request

`launch` is the way of an invocation from its start, or from a retry, to the
moment when `send` stores the connection in `send_connection_`; from then on
other threads may notify the invocation. `sent` is the rest of `send`: the second
look at the connection, and the hand-over of the message to the write queue.
-/

namespace HazelcastClient.Spi

open Interleaving

/-- `exception::io("No connection found to invoke")`. -/
def noConnectionFound : IException := ⟨.io, false⟩

def targetDisconnected : IException := ⟨.targetDisconnected, false⟩

/-- The connections that `invoke_on_selection` may try: the bound one, or the
one of the partition or member and then any other one. -/
def mayTry (request : Request) (candidates : List ConnId) : Bool :=
  candidates.length ≤ if request.boundToSingleConnection then 1 else 2

/-- `set_send_connection` with a new holder. -/
def Client.publish (s : Client) (i : InvId) (c : ConnId) : Client :=
  { s.update i (·.setSendConnection ⟨s.nextAddress, some c⟩) with
    nextAddress := s.nextAddress + 1 }

/-- One step of `retry`, `invoke_on_selection` or the first half of `send`. -/
def fireLaunch (s : Client) (choice : Choice) (i : InvId) : Launch → Option ServiceEffect
  | .retry => some { shared := s.update i Invocation.copyMessage, next := [.launch i .select] }
  | .select =>
    let s' := s.update i fun v => { v with invokeCount := v.invokeCount + 1 }
    match choice with
    | .refuse e => some { shared := s', next := [.failing i (.readId e)] }
    | .candidates cs =>
      if mayTry (s.invocation i).request cs then
        some { shared := s', next := [.launch i (.trySend cs)] }
      else none
    | _ => none
  | .trySend [] => some { shared := s, next := [.failing i (.readId noConnectionFound)] }
  | .trySend (c :: cs) =>
    if s.isShutdown then
      some { shared := s, next := [.failing i (.readId hazelcastClientNotActive)] }
    else some { shared := s, next := [.launch i (.checkAlive c cs)] }
  | .checkAlive c cs =>
    if c ∈ s.alive then some { shared := s, next := [.launch i (.register c)] }
    else some { shared := s, next := [.launch i (.trySend cs)] }
  | .register c => some { shared := s, next := [.launch i (.insert c (s.currentId i))] }
  | .insert c k => some { shared := s.register k i, next := [.launch i (.publish c k)] }
  | .publish c k =>
    some {
      shared := s.publish i c
      next := [.sent i c (.recheck k)]
      event := some (.published i s.nextAddress c) }

def Client.enqueueWrite (s : Client) (c : ConnId) (entry : OutboundEntry) : Client :=
  { s with writeQueue := Function.update s.writeQueue c (s.writeQueue c ++ [entry]) }

/-- One step of the second half of `send`. -/
def fireSent (s : Client) (i : InvId) (c : ConnId) : Sent → Option ServiceEffect
  | .recheck k =>
    if c ∈ s.alive then some { shared := s, next := [.sent i c .write] }
    else some { shared := s, next := [.permission i k (.connectionClosed c) .load] }
  | .write => some { shared := s, next := [.sent i c (.readId (s.invocation i).clientMessage)] }
  | .readId m =>
    some { shared := s, next := [.sent i c (.enqueue m ((s.invocation i).correlationIds m))] }
  | .enqueue m k =>
    some {
      shared := s.enqueueWrite c ⟨k, i, m⟩
      spawned := [⟨.io, [.socket c .flush]⟩] }

end HazelcastClient.Spi
