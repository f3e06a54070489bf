import HazelcastClient.Interleaving.Machine

/-!
# The life cycle of transactions

`TransactionProxy` runs the transactions of one thread, one after the other. Two variables
say where it is: `state_`, and `transaction_exists_`, which keeps a transaction from being
begun inside another one. Each call changes them before it sends its request, when it is
refused or fails to send, and when the answer arrives.

What a transaction is does not depend on them (`System.current`): it is in progress from
the request that creates it until that request fails, or until a commit or a rollback of it
is over.
-/

namespace HazelcastClient.Txn

open Interleaving List Interleaving.Effect

inductive TxnState where
  | noTxn
  | active
  | preparing
  | prepared
  | committing
  | committed
  | commitFailed
  | rollingBack
  | rolledBack
  deriving DecidableEq

/-- `transaction` exceptions carry the one that led to them, if any. -/
inductive TxnException where
  | illegalState (source message : String)
  | transaction (source message : String)
  | nested (source message : String) (cause : TxnException)
  /-- an exception of the invocation -/
  | invocation
  deriving DecidableEq

structure TransactionOptions where
  timeoutMillis : ℤ
  durability : ℤ
  transactionType : ℤ
  deriving DecidableEq

inductive Request where
  | create (timeoutMillis durability transactionType threadId : ℤ)
  | commit (txnId : ℕ) (threadId : ℤ)
  | rollback (txnId : ℕ) (threadId : ℤ)
  deriving DecidableEq

/-- What a call meets: the thread that makes it, the time, and whether the invocation of
its request throws. -/
structure Call where
  thread : ℤ
  now : ℤ
  throws : Bool
  deriving DecidableEq

/-- How the call itself ends. `ready` is a future that is ready. -/
inductive Outcome where
  | threw (exception : TxnException)
  | sent (request : Request)
  | ready
  deriving DecidableEq

/-- Times are counted in milliseconds. -/
structure TransactionProxy where
  options : TransactionOptions
  threadId : ℤ
  transactionExists : Bool := false
  txnId : ℕ := 0
  state : TxnState := .noTxn
  startTime : ℤ := 0
  deriving DecidableEq

namespace TransactionProxy

def rethrow (message : String) (cause : TxnException) : TxnException :=
  .nested "transaction_exceptionFactory::create" message cause

/-- The exception of `client_transaction_util::invoke`. -/
def invokeFailed : TxnException := rethrow "ClientTransactionUtil::invoke failed" .invocation

def checkThread (p : TransactionProxy) (call : Call) : Option TxnException :=
  if p.threadId ≠ call.thread then
    some (.illegalState "TransactionProxy::checkThread()"
      "Transaction cannot span multiple threads!")
  else none

def checkTimeout (p : TransactionProxy) (call : Call) : Option TxnException :=
  if p.startTime + p.options.timeoutMillis < call.now then
    some (.transaction "TransactionProxy::checkTimeout()" "Transaction is timed-out!")
  else none

def alreadyActive : TxnException :=
  .illegalState "TransactionProxy::begin()" "Transaction is already active"

def nestedTransaction : TxnException :=
  .illegalState "TransactionProxy::begin()" "Nested transactions are not allowed!"

def refusal (p : TransactionProxy) (call : Call) : Option TxnException :=
  if p.state = .active then some alreadyActive
  else
    (p.checkThread call).orElse fun _ =>
      if p.transactionExists then some nestedTransaction else none

def createRequest (p : TransactionProxy) : Request :=
  .create p.options.timeoutMillis p.options.durability p.options.transactionType p.threadId

def begin (p : TransactionProxy) (call : Call) : TransactionProxy × Outcome :=
  match p.refusal call with
  | some e => ({ p with transactionExists := false }, .threw e)
  | none =>
    let started := { p with transactionExists := true, startTime := call.now }
    if call.throws then ({ started with transactionExists := false }, .threw invokeFailed)
    else (started, .sent p.createRequest)

/-- The answer to the request of `begin`. -/
def begun (p : TransactionProxy) : Option ℕ → TransactionProxy
  | some id => { p with txnId := id, state := .active }
  | none => { p with transactionExists := false }

def notActive (source : String) : TxnException :=
  .illegalState source "Transaction is not active"

/-- The handler of everything that goes wrong before the request is sent. -/
def commitThrew (p : TransactionProxy) (cause : TxnException) : TransactionProxy × Outcome :=
  ({ p with state := .commitFailed, transactionExists := false },
    .threw (rethrow "TransactionProxy::commit() failed" cause))

def commit (p : TransactionProxy) (call : Call) : TransactionProxy × Outcome :=
  if p.state ≠ .active then p.commitThrew (notActive "TransactionProxy::commit()")
  else
    let committing := { p with state := .committing }
    match (p.checkThread call).orElse fun _ => p.checkTimeout call with
    | some e => committing.commitThrew e
    | none =>
      if call.throws then committing.commitThrew invokeFailed
      else (committing, .sent (.commit p.txnId p.threadId))

/-- The answer to the request of `commit`. -/
def commitDone (p : TransactionProxy) (succeeded : Bool) : TransactionProxy :=
  if succeeded then { p with state := .committed } else { p with transactionExists := false }

def rollbackThrew (p : TransactionProxy) (cause : TxnException) : TransactionProxy × Outcome :=
  ({ p with transactionExists := false },
    .threw (rethrow "TransactionProxy::rollback() failed" cause))

/-- The answer to the request of `rollback`; a failure is only logged. -/
def rollbackDone (p : TransactionProxy) : TransactionProxy :=
  { p with state := .rolledBack, transactionExists := false }

def rollback (p : TransactionProxy) (call : Call) : TransactionProxy × Outcome :=
  if p.state = .noTxn ∨ p.state = .rolledBack then
    p.rollbackThrew (notActive "TransactionProxy::rollback()")
  else
    let rollingBack := { p with state := .rollingBack }
    match p.checkThread call with
    | some e => rollingBack.rollbackThrew e
    | none =>
      if call.throws then (rollingBack.rollbackDone, .ready)
      else (rollingBack, .sent (.rollback p.txnId p.threadId))

/-- After a call of `commit` the state is not active, and the flag is down unless the
request has been sent. -/
theorem commit_fst (p : TransactionProxy) (call : Call) :
    (p.commit call).1.state ≠ .active ∧
      ((p.commit call).1.transactionExists = false ∨
        (p.commit call).1.transactionExists = p.transactionExists ∧
          ∃ request, (p.commit call).2 = .sent request) := by
  fun_cases commit p call
  case case4 => exact ⟨by simp, .inr ⟨rfl, _, rfl⟩⟩
  all_goals exact ⟨by simp [commitThrew], .inl rfl⟩

theorem rollback_fst (p : TransactionProxy) (call : Call) :
    (p.rollback call).1.state ≠ .active ∧
      ((p.rollback call).1.transactionExists = false ∨
        (p.rollback call).1.transactionExists = p.transactionExists ∧
          ∃ request, (p.rollback call).2 = .sent request) := by
  fun_cases rollback p call
  case case1 hstate =>
    refine ⟨?_, .inl rfl⟩
    rcases hstate with hstate | hstate
    · simp [rollbackThrew, hstate]
    · simp [rollbackThrew, hstate]
  case case4 => exact ⟨by simp, .inr ⟨rfl, _, rfl⟩⟩
  all_goals exact ⟨by simp [rollbackThrew, rollbackDone], .inl rfl⟩

end TransactionProxy

open TransactionProxy (alreadyActive commitDone invokeFailed)

/-! ## Calls of the owning thread -/

/-- A transaction in progress: its number, and whether it has been created. -/
structure Progress where
  serial : ℕ
  created : Bool
  deriving DecidableEq

structure System where
  proxy : TransactionProxy
  begun : ℕ := 0
  current : Option Progress := none
  /-- the last transaction that is over ended with a commit that succeeded -/
  lastCommitted : Bool := false
  deriving DecidableEq

/-- Requests that have not been answered. A commit or a rollback belongs to the transaction
that was there, and created, when it was called. -/
inductive Frame where
  | begin (serial : ℕ)
  | commit (of : Option ℕ)
  | rollback (of : Option ℕ)
  deriving DecidableEq

inductive Choice where
  | begin (now : ℤ) (throws : Bool)
  | commit (now : ℤ) (throws : Bool)
  | rollback (now : ℤ) (throws : Bool)
  | answer (id : ℕ)
  | failed
  deriving DecidableEq

/-- The events are the outcomes of the calls. -/
abbrev Effect := Interleaving.Effect System Unit Frame Outcome

namespace System

def call (s : System) (now : ℤ) (throws : Bool) : Call := ⟨s.proxy.threadId, now, throws⟩

/-- The transaction that a commit or a rollback called now belongs to. -/
def target (s : System) : Option ℕ :=
  match s.current with
  | some ⟨serial, true⟩ => some serial
  | _ => none

def finish (s : System) (of : Option ℕ) (committed : Bool) : System :=
  match of with
  | some serial =>
    if s.current = some ⟨serial, true⟩ then
      { s with current := none, lastCommitted := committed }
    else s
  | none => s

def created (s : System) (serial : ℕ) (succeeded : Bool) : System :=
  if s.current = some ⟨serial, false⟩ then
    if succeeded then { s with current := some ⟨serial, true⟩ }
    else { s with current := none, lastCommitted := false }
  else s

def withProxy (s : System) (p : TransactionProxy) : System := { s with proxy := p }

def outside (s : System) : Choice → Option Effect
  | .begin now throws =>
    let r := s.proxy.begin (s.call now throws)
    match r.2 with
    | .sent _ =>
      some
        { shared :=
            { s with proxy := r.1, begun := s.begun + 1, current := some ⟨s.begun, false⟩ }
          spawned := [⟨(), [.begin s.begun]⟩]
          event := some r.2 }
    | _ => some { shared := s.withProxy r.1, event := some r.2 }
  | .commit now throws =>
    let r := s.proxy.commit (s.call now throws)
    match r.2 with
    | .sent _ =>
      some
        { shared := s.withProxy r.1
          spawned := [⟨(), [.commit s.target]⟩]
          event := some r.2 }
    | _ =>
      -- a call that is refused is not a commit of the transaction
      if s.proxy.state = .active then
        some { shared := (s.withProxy r.1).finish s.target false, event := some r.2 }
      else some { shared := s.withProxy r.1, event := some r.2 }
  | .rollback now throws =>
    let r := s.proxy.rollback (s.call now throws)
    match r.2 with
    | .sent _ =>
      some
        { shared := s.withProxy r.1
          spawned := [⟨(), [.rollback s.target]⟩]
          event := some r.2 }
    | .ready => some { shared := (s.withProxy r.1).finish s.target false, event := some r.2 }
    | .threw _ => some { shared := s.withProxy r.1, event := some r.2 }
  | _ => none

def fire (s : System) : Choice → Frame → Option Effect
  | .answer id, .begin serial =>
    some { shared := (s.withProxy (s.proxy.begun (some id))).created serial true }
  | .failed, .begin serial =>
    some { shared := (s.withProxy (s.proxy.begun none)).created serial false }
  | .answer _, .commit of =>
    some { shared := (s.withProxy (s.proxy.commitDone true)).finish of true }
  | .failed, .commit of =>
    some { shared := (s.withProxy (s.proxy.commitDone false)).finish of false }
  | .answer _, .rollback of =>
    some { shared := (s.withProxy s.proxy.rollbackDone).finish of false }
  | .failed, .rollback of =>
    some { shared := (s.withProxy s.proxy.rollbackDone).finish of false }
  | _, _ => none

end System

def machine : Machine System Unit Frame Choice Outcome where
  fire := fun s _ => s.fire
  outside := System.outside

abbrev Config := Interleaving.Config System Unit Frame

abbrev Move := Interleaving.Move Frame Choice

def start (options : TransactionOptions) (threadId : ℤ) : Config :=
  ⟨{ proxy := { options := options, threadId := threadId } }, []⟩

/-! ## The life cycle -/

/-- What a step should do. A call of `begin` creates a transaction if none is in progress,
and is refused otherwise and changes nothing; the answer to a commit sets the state. -/
def LifeCycle (c : Config) : Move → Option Outcome → Config → Prop
  | .outside (.begin _ throws), outcome, c' =>
    (c.shared.current = none → outcome = some
      (if throws then .threw invokeFailed
        else .sent c.shared.proxy.createRequest)) ∧
    (c.shared.current ≠ none → c'.shared.proxy = c.shared.proxy ∧
      ∃ source message, outcome = some (.threw (.illegalState source message)))
  | .frame (.commit _) (.answer _), _, c' => c'.shared.proxy.state = .committed
  | .frame (.commit _) .failed, _, c' => c'.shared.proxy.state = .commitFailed
  | _, _, _ => True

/-- The flag is not set and the state is right when `begin` is called, and the state has
been set to `commitFailed` before a commit fails in the end. -/
def Regular (c : Config) : Move → Prop
  | .outside (.begin _ _) => c.shared.proxy.transactionExists = false ∧
      (c.shared.proxy.state = .active ↔ c.shared.current ≠ none)
  | .frame (.commit _) .failed => c.shared.proxy.state = .commitFailed
  | _ => True

/-- `begin` is called neither during a transaction nor after one that was committed, and
every commit that is sent succeeds. -/
def Orderly (c : Config) : Move → Prop
  | .outside (.begin _ _) => c.shared.current = none ∧ c.shared.lastCommitted = false
  | .frame (.commit _) .failed => False
  | _ => True

instance (c : Config) (mv : Move) : Decidable (Orderly c mv) := by
  unfold Orderly
  split <;> infer_instance

namespace System

variable {s : System}

@[simp] theorem finish_proxy (s : System) (of : Option ℕ) (committed : Bool) :
    (s.finish of committed).proxy = s.proxy := by
  unfold finish
  split
  · split
    · rfl
    · rfl
  · rfl

/-- The owning thread is refused because of the state or because of the flag. -/
theorem refusal_call (s : System) (now : ℤ) (throws : Bool) :
    s.proxy.refusal (s.call now throws) =
      if s.proxy.state = .active then some alreadyActive
      else if s.proxy.transactionExists then some TransactionProxy.nestedTransaction
      else none := by
  have hthread : s.proxy.checkThread (s.call now throws) = none := if_neg (by simp [call])
  unfold TransactionProxy.refusal
  rw [hthread]
  rfl

theorem begin_of_refused (now : ℤ) (throws : Bool)
    (h : s.proxy.state = .active ∨ s.proxy.transactionExists = true) :
    ∃ source message, s.proxy.begin (s.call now throws) =
      ({ s.proxy with transactionExists := false }, .threw (.illegalState source message)) := by
  unfold TransactionProxy.begin
  rw [refusal_call]
  by_cases hactive : s.proxy.state = .active
  · rw [if_pos hactive]
    exact ⟨_, _, rfl⟩
  · rw [if_neg hactive, if_pos (h.resolve_left hactive)]
    exact ⟨_, _, rfl⟩

theorem begin_of_free (now : ℤ) (throws : Bool) (hstate : s.proxy.state ≠ .active)
    (hflag : s.proxy.transactionExists = false) :
    s.proxy.begin (s.call now throws) =
      if throws then
        ({ s.proxy with transactionExists := false, startTime := now },
          .threw invokeFailed)
      else ({ s.proxy with transactionExists := true, startTime := now },
        .sent s.proxy.createRequest) := by
  unfold TransactionProxy.begin
  rw [refusal_call, if_neg hstate, hflag]
  rfl

theorem outside_begin {now : ℤ} {throws : Bool} {e : Effect}
    (h : s.outside (.begin now throws) = some e) :
    e.event = some (s.proxy.begin (s.call now throws)).2 ∧
      e.shared.proxy = (s.proxy.begin (s.call now throws)).1 := by
  unfold outside at h
  simp only at h
  split at h
  · cases h
    exact ⟨rfl, rfl⟩
  · cases h
    exact ⟨rfl, rfl⟩

end System

variable {ev : Option Outcome} {throws : Bool} {c c' : Config} (s : System)

/-- `begin` does what it should exactly when the flag is down and the state tells whether
there is a transaction. -/
theorem lifeCycle_begin_iff {now : ℤ}
    (hevent : ev = some (c.shared.proxy.begin (c.shared.call now throws)).2)
    (hproxy : c'.shared.proxy = (c.shared.proxy.begin (c.shared.call now throws)).1) :
    LifeCycle c (.outside (.begin now throws)) ev c' ↔
      Regular c (.outside (.begin now throws)) := by
  unfold LifeCycle Regular
  simp only [hevent, hproxy]
  by_cases hrefused : c.shared.proxy.state = .active ∨
      c.shared.proxy.transactionExists = true
  · obtain ⟨source, message, hbegin⟩ := System.begin_of_refused now throws hrefused
    rw [hbegin]
    constructor
    · rintro ⟨hnone, hsome⟩
      have hcurrent : c.shared.current ≠ none := by
        intro h
        have hsent := hnone h
        cases throws with
        | true => simp [invokeFailed, TransactionProxy.rethrow] at hsent
        | false => simp at hsent
      have hflag : c.shared.proxy.transactionExists = false :=
        (congrArg TransactionProxy.transactionExists (hsome hcurrent).1).symm
      have hactive : c.shared.proxy.state = .active := hrefused.resolve_right (by simp [hflag])
      exact ⟨hflag, iff_of_true hactive hcurrent⟩
    · rintro ⟨hflag, hiff⟩
      have hcurrent := hiff.mp (hrefused.resolve_right (by simp [hflag]))
      refine ⟨fun h => absurd h hcurrent, fun _ => ⟨?_, source, message, rfl⟩⟩
      rw [← hflag]
  · obtain ⟨hstate, hflag⟩ := not_or.mp hrefused
    rw [Bool.not_eq_true] at hflag
    rw [System.begin_of_free now throws hstate hflag]
    constructor
    · rintro ⟨-, hsome⟩
      refine ⟨hflag, iff_of_false hstate fun hcurrent => ?_⟩
      obtain ⟨-, source, message, houtcome⟩ := hsome hcurrent
      cases throws with
      | true => simp [invokeFailed, TransactionProxy.rethrow] at houtcome
      | false => simp at houtcome
    · rintro ⟨-, hiff⟩
      have hcurrent : ¬ c.shared.current ≠ none := fun h => hstate (hiff.mpr h)
      refine ⟨fun _ => ?_, fun h => absurd h hcurrent⟩
      cases throws with
      | true | false => rfl

/-- Exactly the regular steps are as they should be. -/
theorem lifeCycle_iff {mv : Move} (hstep : Step machine c mv ev c') :
    LifeCycle c mv ev c' ↔ Regular c mv := by
  rcases hstep.inversion with
    ⟨f, choice, others, threads, e, rfl, hfire, hshared, -, -, -⟩ |
    ⟨choice, e, rfl, hout, hshared, hevent, -⟩
  · change c.shared.fire choice f = some e at hfire
    cases f with
    | begin serial | rollback of => exact Iff.rfl
    | commit of =>
      cases choice with
      | answer id =>
        cases hfire
        refine iff_of_true ?_ trivial
        simp [LifeCycle, hshared, System.withProxy, commitDone]
      | failed =>
        cases hfire
        simp [LifeCycle, Regular, hshared, System.withProxy, commitDone]
      | begin now throws | commit now throws | rollback now throws => exact Iff.rfl
  · change c.shared.outside choice = some e at hout
    cases choice with
    | begin now throws =>
      obtain ⟨hev, hproxy⟩ := System.outside_begin hout
      exact lifeCycle_begin_iff (hevent.trans hev) (hshared ▸ hproxy)
    | commit now throws | rollback now throws | answer id | failed => exact Iff.rfl

/-! ## Orderly runs -/

def Frame.isBegin : Frame → Bool
  | .begin _ => true
  | _ => false

def System.beginning (s : System) : List Frame :=
  match s.current with
  | some ⟨serial, false⟩ => [.begin serial]
  | _ => []

theorem System.beginning_cases :
    s.beginning = [] ∨
      ∃ serial, s.current = some ⟨serial, false⟩ ∧ s.beginning = [.begin serial] := by
  unfold System.beginning
  split
  · rename_i serial hcurrent
    exact .inr ⟨serial, hcurrent, rfl⟩
  · exact .inl rfl

theorem System.finish_cases (of : Option ℕ) (committed : Bool) :
    s.finish of committed = s ∨
      ∃ serial, s.current = some ⟨serial, true⟩ ∧
        s.finish of committed = { s with current := none, lastCommitted := committed } := by
  unfold System.finish
  split
  · rename_i serial
    split
    · rename_i hcurrent
      exact .inr ⟨serial, hcurrent, rfl⟩
    · exact .inl rfl
  · exact .inl rfl

/-- The variables of the proxy agree with the transactions, as far as they do when the
calls are orderly. -/
structure Consistent (s : System) (frames : List Frame) : Prop where
  active : s.proxy.state = .active → ∃ serial, s.current = some ⟨serial, true⟩
  flag : s.current = none → s.lastCommitted = true ∨ s.proxy.transactionExists = false
  beginning : frames.filter Frame.isBegin = s.beginning

namespace Consistent

variable {s : System} {frames : List Frame} {of : Option ℕ} {committed : Bool}
  {p : TransactionProxy} {f : Frame} {choice : Choice} {e : Effect}

theorem perm {frames' : List Frame} (hperm : frames.Perm frames') (h : Consistent s frames) :
    Consistent s frames' := by
  refine ⟨h.active, h.flag, ?_⟩
  have hfilter := (hperm.filter Frame.isBegin).symm
  rw [h.beginning] at hfilter
  rcases s.beginning_cases with hnil | ⟨serial, -, hsingle⟩
  · rw [hnil] at hfilter ⊢
    exact perm_nil.mp hfilter
  · rw [hsingle] at hfilter ⊢
    exact perm_singleton.mp hfilter

theorem withProxy (h : Consistent s frames) (hstate : p.state = .active → s.proxy.state = .active)
    (hflag : s.proxy.transactionExists = false → p.transactionExists = false) :
    Consistent (s.withProxy p) frames :=
  ⟨fun hp => h.active (hstate hp), fun hcurrent => (h.flag hcurrent).imp_right hflag,
    h.beginning⟩

theorem finish (h : Consistent s frames) (hstate : s.proxy.state ≠ .active)
    (hflag : committed = true ∨ s.proxy.transactionExists = false) :
    Consistent (s.finish of committed) frames := by
  rcases s.finish_cases of committed with hsame | ⟨serial, hcurrent, hover⟩
  · rw [hsame]
    exact h
  · have hbeginning : s.beginning = [] := by rw [System.beginning, hcurrent]
    rw [hover]
    exact ⟨fun hs => absurd hs hstate, fun _ => hflag, h.beginning.trans hbeginning⟩

theorem cons_iff (hf : f.isBegin = false) :
    Consistent s (f :: frames) ↔ Consistent s frames := by
  have hfilter : (f :: frames).filter Frame.isBegin = frames.filter Frame.isBegin :=
    filter_cons_of_neg (by simp [hf])
  constructor
  · intro h
    exact ⟨h.active, h.flag, hfilter ▸ h.beginning⟩
  · intro h
    exact ⟨h.active, h.flag, hfilter.trans h.beginning⟩

/-- The creation that the current transaction waits for is the only one. -/
theorem of_begin {serial : ℕ} (h : Consistent s (.begin serial :: frames)) :
    s.current = some ⟨serial, false⟩ ∧ frames.filter Frame.isBegin = [] := by
  have hfilter : Frame.begin serial :: frames.filter Frame.isBegin = s.beginning := h.beginning
  rcases s.beginning_cases with hnil | ⟨serial', hcurrent, hsingle⟩
  · rw [hnil] at hfilter
    cases hfilter
  · rw [hsingle, List.cons.injEq] at hfilter
    obtain ⟨hserial, hrest⟩ := hfilter
    cases hserial
    exact ⟨hcurrent, hrest⟩

theorem fire (h : Consistent s (f :: frames)) (hok : ∀ of, f = .commit of → choice ≠ .failed)
    (hfire : s.fire choice f = some e) :
    Consistent e.shared (e.frames ++ frames) := by
  revert hfire
  fun_cases System.fire s choice f <;> rintro ⟨⟩
  case case1 id serial =>
    obtain ⟨hcurrent, hrest⟩ := h.of_begin
    have hcreated : (s.withProxy (s.proxy.begun (some id))).created serial true =
        { s.withProxy (s.proxy.begun (some id)) with current := some ⟨serial, true⟩ } :=
      if_pos hcurrent
    simp only [hcreated]
    exact ⟨fun _ => ⟨serial, rfl⟩, fun hnone => (by cases hnone), hrest⟩
  case case2 serial =>
    obtain ⟨hcurrent, hrest⟩ := h.of_begin
    have hcreated : (s.withProxy (s.proxy.begun none)).created serial false =
        { s.withProxy (s.proxy.begun none) with current := none, lastCommitted := false } :=
      if_pos hcurrent
    simp only [hcreated]
    refine ⟨fun hactive => ?_, fun _ => .inr rfl, hrest⟩
    obtain ⟨serial', hserial'⟩ := h.active hactive
    rw [hcurrent] at hserial'
    cases hserial'
  case case3 =>
    have hdone := ((cons_iff rfl).mp h).withProxy (p := s.proxy.commitDone true)
      (fun hp => by cases hp) (fun hp => hp)
    exact hdone.finish (fun hp => by cases hp) (.inl rfl)
  case case4 of => exact absurd rfl (hok of rfl)
  all_goals
    have hdone := ((cons_iff rfl).mp h).withProxy (p := s.proxy.rollbackDone)
      (fun hp => by cases hp) (fun _ => rfl)
    exact hdone.finish (fun hp => by cases hp) (.inr rfl)

section

variable (h : Consistent s frames)

include h

theorem begin {now : ℤ} (hcurrent : s.current = none)
    (hout : s.outside (.begin now throws) = some e) :
    Consistent e.shared (frames ++ e.spawnedFrames) := by
  have hnil : frames.filter Frame.isBegin = [] := by
    rw [h.beginning, System.beginning, hcurrent]
  by_cases hrefused : s.proxy.state = .active ∨ s.proxy.transactionExists = true
  · obtain ⟨source, message, hbegin⟩ := System.begin_of_refused now throws hrefused
    simp only [System.outside, hbegin] at hout
    cases hout
    simp only [spawnedFrames, flatMap_nil, append_nil]
    exact h.withProxy (fun hp => hp) (fun _ => rfl)
  · obtain ⟨hstate, hflag⟩ := not_or.mp hrefused
    have hbegin := System.begin_of_free now throws hstate (Bool.not_eq_true _ ▸ hflag)
    cases throws with
    | true =>
      simp only [System.outside, hbegin, ↓reduceIte] at hout
      cases hout
      simp only [spawnedFrames, flatMap_nil, append_nil]
      exact h.withProxy (fun hp => hp) (fun _ => rfl)
    | false =>
      simp only [System.outside, hbegin, Bool.false_eq_true, ↓reduceIte] at hout
      cases hout
      refine ⟨fun hp => absurd hp hstate, fun hp => (by cases hp), ?_⟩
      rw [filter_append, hnil]
      rfl

theorem called (of : Option ℕ) {outcome : Outcome}
    (hp : p.state ≠ .active ∧ (p.transactionExists = false ∨
      p.transactionExists = s.proxy.transactionExists ∧ ∃ request, outcome = .sent request)) :
    Consistent (s.withProxy p) frames ∧
      ((∀ request, outcome ≠ .sent request) → Consistent ((s.withProxy p).finish of false) frames)
    := by
  have hproxy : Consistent (s.withProxy p) frames := by
    refine h.withProxy (fun hactive => absurd hactive hp.1) fun hflag => ?_
    rcases hp.2 with hdown | ⟨hsame, -⟩
    · exact hdown
    · rw [hsame, hflag]
  refine ⟨hproxy, fun hunsent => hproxy.finish hp.1 (.inr ?_)⟩
  rcases hp.2 with hdown | ⟨-, request, hsent⟩
  · exact hdown
  · exact absurd hsent (hunsent request)

theorem concat (hf : f.isBegin = false) : Consistent s (frames ++ [f]) :=
  ((cons_iff hf).mpr h).perm (perm_append_singleton f frames).symm

theorem outside (hok : ∀ now throws, choice = .begin now throws → s.current = none)
    (hout : s.outside choice = some e) : Consistent e.shared (frames ++ e.spawnedFrames) := by
  have hnone : ∀ {s' : System} {outcome : Option Outcome}, Consistent s' frames →
      Consistent s' (frames ++ ({ shared := s', event := outcome } : Effect).spawnedFrames) := by
    intro s' outcome h'
    simpa [spawnedFrames] using h'
  have hcommit := fun now throws => h.called s.target (s.proxy.commit_fst (s.call now throws))
  have hrollback := fun now throws => h.called s.target (s.proxy.rollback_fst (s.call now throws))
  have hfired := hout
  revert hout
  fun_cases System.outside s choice <;> rintro ⟨⟩
  case case3 => exact (hcommit _ _).1.concat rfl
  case case4 => exact hnone ((hcommit _ _).2 ‹_›)
  case case5 => exact hnone (hcommit _ _).1
  case case6 => exact (hrollback _ _).1.concat rfl
  case case7 hready =>
    refine hnone ((hrollback _ _).2 fun request hsent => ?_)
    cases hready.symm.trans hsent
  case case8 => exact hnone (hrollback _ _).1
  all_goals exact h.begin (hok _ _ rfl) hfired

end

end Consistent

section Runs

variable {ok : Config → Move → Prop} {options : TransactionOptions} {threadId : ℤ}
  {events : List Outcome} {c : Config}

theorem consistent_of_run (hrun : Run machine ok (start options threadId) events c)
    (hok : ∀ c mv, ok c mv → Orderly c mv) : Consistent c.shared c.frames := by
  refine hrun.frameInvariant (P := fun _ s frames => Consistent s frames) ?_ ?_ ?_ ?_
  · intro es s frames frames' hperm h
    exact h.perm hperm
  · refine ⟨fun hactive => ?_, fun _ => .inr rfl, rfl⟩
    cases hactive
  · intro es c₁ f choice others threads e _ _ h hallowed hfire
    refine h.fire ?_ hfire
    rintro of rfl rfl
    exact hok _ _ hallowed
  · intro es c₁ choice e _ h hallowed hout
    refine h.outside ?_ hout
    rintro now throws rfl
    exact (hok _ _ hallowed).1

/-- A step is as it should be exactly when it is regular; and in orderly runs all steps
are regular. -/
theorem transactions_follow_life_cycle (hrun : Run machine ok (start options threadId) events c)
    {mv : Move} {ev : Option Outcome} {c' : Config} (hstep : Step machine c mv ev c') :
    (LifeCycle c mv ev c' ↔ Regular c mv) ∧
      ((∀ c mv, ok c mv → Orderly c mv) → ok c mv → LifeCycle c mv ev c') := by
  refine ⟨lifeCycle_iff hstep, fun hok hallowed => (lifeCycle_iff hstep).mpr ?_⟩
  have hcons := consistent_of_run hrun hok
  have horderly := hok c mv hallowed
  cases mv with
  | frame f choice =>
    cases f with
    | begin serial | rollback of => trivial
    | commit of =>
      cases choice with
      | failed => exact horderly.elim
      | answer id | begin now throws | commit now throws | rollback now throws => trivial
  | outside choice =>
    cases choice with
    | begin now throws =>
      obtain ⟨hcurrent, hlast⟩ := horderly
      have hflag := (hcons.flag hcurrent).resolve_left (by simp [hlast])
      refine ⟨hflag, iff_of_false (fun hactive => ?_) (fun hne => hne hcurrent)⟩
      obtain ⟨serial, hserial⟩ := hcons.active hactive
      rw [hcurrent] at hserial
      cases hserial
    | commit now throws | rollback now throws | answer id | failed => trivial

end Runs

/-! ### Runs of one proxy -/

def exampleStart : Config := start ⟨120000, 1, 2⟩ 1

/-- A transaction is rolled back and another one is committed; a call of `rollback` comes
too early. -/
def rolledBackThenCommitted : List (Pick Choice) :=
  [.outside (.begin 0 false), .outside (.rollback 0 false), .thread 0 (.answer 7),
    .outside (.rollback 0 false), .thread 1 .failed, .outside (.begin 0 true),
    .outside (.begin 0 false), .thread 2 (.answer 8), .outside (.commit 0 false)]

theorem follow_life_cycle_committed : ∃ events c mv ev c',
    Run machine (fun c mv => Orderly c mv) exampleStart events c ∧ Step machine c mv ev c' ∧
      mv = .frame (.commit (some 1)) (.answer 0) ∧ LifeCycle c mv ev c' := by
  have hexec : (machine.execAll (fun c mv => decide (Orderly c mv)) exampleStart
      rolledBackThenCommitted).any (fun r =>
        (machine.exec r.2 (.thread 3 (.answer 0))).any fun r =>
          r.1 == .frame (.commit (some 1)) (.answer 0)) = true := by
    decide +kernel
  obtain ⟨events, c, hrun, hlast⟩ := Run.of_execAll_any hexec
  obtain ⟨mv, ev, c', hstep, hmv⟩ := Step.of_exec_any hlast
  obtain rfl : mv = .frame (.commit (some 1)) (.answer 0) := beq_iff_eq.mp hmv
  have hrun' := hrun.mono fun _ _ h => of_decide_eq_true h
  exact ⟨events, c, _, ev, c', hrun', hstep, rfl,
    (transactions_follow_life_cycle hrun' hstep).2 (fun _ _ h => h) trivial⟩

/-- `begin` is called three times before the first answer: the second call is refused and
takes the flag down, and the third one creates another transaction. -/
theorem third_begin_creates : ∃ events c mv ev c',
    Run machine Always exampleStart events c ∧ Step machine c mv ev c' ∧
      c.shared.current = some ⟨0, false⟩ ∧ mv = .outside (.begin 0 false) ∧
      ev = some (.sent (.create 120000 1 2 1)) ∧ ¬ LifeCycle c mv ev c' := by
  have hexec : (machine.execAll (fun _ _ => true) exampleStart
      [.outside (.begin 0 false), .outside (.begin 0 false)]).any (fun r =>
        r.2.shared.current == some ⟨0, false⟩ &&
        (machine.exec r.2 (.outside (.begin 0 false))).any fun r =>
          r.1 == .outside (.begin 0 false) &&
            r.2.1 == some (.sent (.create 120000 1 2 1))) = true := by
    decide +kernel
  obtain ⟨events, c, hrun, htest⟩ := Run.of_execAll_any hexec
  rw [Bool.and_eq_true, beq_iff_eq] at htest
  obtain ⟨mv, ev, c', hstep, hlast⟩ := Step.of_exec_any htest.2
  rw [Bool.and_eq_true, beq_iff_eq, beq_iff_eq] at hlast
  obtain ⟨rfl, rfl⟩ := hlast
  refine ⟨events, c, _, _, c', hrun.always, hstep, htest.1, rfl, rfl, ?_⟩
  rintro ⟨-, hrefused⟩
  obtain ⟨-, source, message, houtcome⟩ := hrefused (by rw [htest.1]; exact Option.some_ne_none _)
  cases houtcome

end HazelcastClient.Txn
