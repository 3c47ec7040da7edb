import CCForge.UringContext.Kernel
import CCForge.Lib.Run
import Mathlib.Logic.Function.Basic

/-!
# Operations of the io_uring context

Each section under the mutex of the context is one step, as is each completion that the poller
handles and each resumption. The awaitables run on threads of their own, and any thread may stop a
token, or close, stop or shut down the context. An awaitable lives at an address, which is used
again when it is gone. The lists that are threaded through the operations are lists of addresses.
-/

namespace CCForge.UringContext

/-- `operation_phase`. -/
inductive OperationPhase where
  | starting
  | suspended
  | completed
  deriving DecidableEq, Repr

/-- `outcome`. -/
inductive Outcome where
  | notStarted
  | inlineValue
  | stopped
  | saturated
  | submitted
  deriving DecidableEq, Repr

/-- The arguments of an awaitable. `stopPossible` is a property of its stop token. -/
structure Awaitable where
  isRead : Bool := true
  fd : ℤ := -1
  address : ℕ := 0
  size : ℕ := 0
  stopPossible : Bool := false
  deriving DecidableEq, Repr

/-- `clamped_length`. -/
def Awaitable.clampedLength (a : Awaitable) : ℕ := min a.size (2 ^ 31 - 1)

def IORING_OP_READ : ℕ := 22
def IORING_OP_WRITE : ℕ := 23

/-- What `await_suspend` submits. -/
def Awaitable.request (a : Awaitable) : Request where
  opcode := if a.isRead then IORING_OP_READ else IORING_OP_WRITE
  fd := a.fd
  address := a.address
  length := a.clampedLength

/-- The stop callback of an awaitable: not there, waiting for the stop of the token, in execution, or
executed. -/
inductive Callback where
  | absent
  | armed
  | running
  | spent
  deriving DecidableEq, Repr

/-- Where `await_suspend` and `await_resume` are. -/
inductive Stage where
  | idle
  | check
  | install
  | installing
  | submitting
  | refused
  | suspended
  | resuming
  | finished
  deriving DecidableEq, Repr

/-- An awaitable with its `io_operation`. `retirements` and `resumptions` count what happened to
it. -/
structure Op where
  awaitable : Awaitable := {}
  phase : OperationPhase := .starting
  result : ℤ := 0
  pendingCqes : ℕ := 1
  registered : Bool := false
  cancelRequested : Bool := false
  cancelPublished : Bool := false
  cancelParked : Bool := false
  request : Request := {}
  submissionPending : Bool := true
  outcome : Outcome := .notStarted
  tokenStopped : Bool := false
  callback : Callback := .absent
  stage : Stage := .idle
  retirements : ℕ := 0
  resumptions : ℕ := 0
  deriving DecidableEq, Repr

/-- Where `run` is. `retry` is `retry_flush`, and `left` counts the completions of the drain. -/
inductive PollerStage where
  | starting
  | submitting
  | waiting
  | scanning (retry : Bool)
  | draining (left : ℕ) (retry : Bool)
  | resuming (batch : List Address) (retry : Bool)
  | exited
  deriving DecidableEq, Repr

/-- The operations that the poller has taken from the ready list and not resumed. -/
def PollerStage.batch : PollerStage → List Address
  | .resuming batch _ => batch
  | _ => []

structure State where
  kernel : Kernel
  ops : Address → Op := fun _ => {}
  operations : List Address := []
  ready : List Address := []
  submissions : List Address := []
  parkedCancels : ℕ := 0
  closed : Bool := false
  stopped : Bool := false
  wakeupPublished : Bool := false
  wakeupInFlight : Bool := false
  wakeupNeeded : Bool := false
  pollerDone : Bool := false
  pollerError : Option ErrorCode := none
  flushDiagnostic : Option ErrorCode := none
  wakeFd : Bool := false
  poller : PollerStage := .starting

/-- What is not decided by the code: what the flushes come to, and what the poller's wait reports. -/
structure Choice where
  republish : Address → Entered := fun _ => .all
  submit : Address → Entered := fun _ => .all
  flush : Entered := .all
  wait : Option ErrorCode := none
  reads : Bool := true

namespace State

def setOp (s : State) (op : Address) (o : Op) : State := { s with ops := Function.update s.ops op o }

/-! ## The sections under the mutex -/

/-- `signal_poller_locked`. -/
def signalPoller (s : State) : State := { s with wakeFd := true }

/-- `record_flush_locked`. -/
def recordFlush (s : State) : Option ErrorCode → State
  | none =>
    let s := { s with flushDiagnostic := none }
    if s.wakeupPublished then { s with wakeupPublished := false, wakeupInFlight := true } else s
  | some error => if error ≠ EBUSY then { s with flushDiagnostic := some error } else s

/-- `flush_published` with `record_flush_locked`. -/
def flush (s : State) (e : Entered) : State :=
  { s with kernel := (s.kernel.flushPublished e).1 }.recordFlush (s.kernel.flushPublished e).2

/-- `submit_wakeup_locked`. -/
def submitWakeup (s : State) : State :=
  let s := s.signalPoller
  if s.pollerDone ∨ s.wakeupInFlight ∨ s.wakeupPublished then s
  else
    let s := { s with wakeupNeeded := true }
    match s.kernel.publishNop .wakeup with
    | (_, false) => { s with flushDiagnostic := some ENOBUFS }
    | (kernel, true) => { s with kernel := kernel, wakeupNeeded := false, wakeupPublished := true }

/-- `publish_cancel_locked`. -/
def publishCancel (s : State) (op : Address) : State × Bool :=
  match s.kernel.publishCancel (.target op) (.cancel op) with
  | (_, false) => (s, false)
  | (kernel, true) =>
    let o := s.ops op
    ({ s with kernel := kernel }.setOp op
      { o with cancelPublished := true, pendingCqes := (o.pendingCqes + 1) % 256 }, true)

/-- `queue_cancel_locked`. -/
def queueCancel (s : State) (op : Address) : State :=
  match s.signalPoller.publishCancel op with
  | (s, false) =>
    { s with parkedCancels := s.parkedCancels + 1 }.setOp op { s.ops op with cancelParked := true }
  | (s, true) => s

/-- The part of `request_cancel` and of the loop of `cancel_all_locked` for an operation whose
cancellation was not requested before. -/
def cancelOne (s : State) (op : Address) : State :=
  if (s.ops op).cancelRequested then s
  else
    let s := s.setOp op { s.ops op with cancelRequested := true }
    if (s.ops op).submissionPending then s else s.queueCancel op

/-- `request_cancel`. -/
def requestCancel (s : State) (op : Address) : State :=
  if (s.ops op).registered = false then s else s.cancelOne op

/-- `cancel_all_locked`, from an operation of the list on. -/
def cancelAll (s : State) : List Address → State
  | [] => s
  | op :: rest => (s.cancelOne op).cancelAll rest

/-- The loop of `retry_parked_cancels_locked`, with the number of cancels it published. -/
def retryParked (s : State) (published : ℕ) : List Address → State × ℕ
  | [] => (s, published)
  | op :: rest =>
    if s.parkedCancels = 0 then (s, published)
    else if (s.ops op).cancelParked = false then s.retryParked published rest
    else
      match s.publishCancel op with
      | (s, false) => (s, published)
      | (s, true) =>
        { s with parkedCancels := s.parkedCancels - 1 }.setOp op
          { s.ops op with cancelParked := false } |>.retryParked (published + 1) rest

/-- `retry_parked_cancels_locked`. -/
def retryParkedCancels (s : State) (e : Entered) : State :=
  match s.retryParked 0 s.operations with
  | (s, published) => if published ≠ 0 then s.flush e else s

/-- `unlink_operation_locked`. -/
def unlinkOperation (s : State) (op : Address) : State :=
  { s with operations := s.operations.erase op }.setOp op { s.ops op with registered := false }

/-- `retire_if_drained_locked`. -/
def retireIfDrained (s : State) (op : Address) : State :=
  let o := s.ops op
  let pendingCqes := (o.pendingCqes + 255) % 256
  let s := s.setOp op { o with pendingCqes := pendingCqes }
  if pendingCqes ≠ 0 then s
  else
    let s := if o.cancelParked then
        { s with parkedCancels := s.parkedCancels - 1 }.setOp op { s.ops op with cancelParked := false }
      else s
    let s := s.unlinkOperation op
    let o := s.ops op
    let s := s.setOp op { o with phase := .completed, retirements := o.retirements + 1 }
    if o.phase = .suspended then { s with ready := s.ready ++ [op] } else s

/-- `complete`. -/
def complete (s : State) (completion : Cqe) : State :=
  match completion.userData with
  | .wakeup =>
    { s with
      wakeupInFlight := false
      wakeupPublished := false
      flushDiagnostic := if completion.res < 0 then some (-completion.res).toNat else none }
  | .cancel op =>
    let s := if completion.res < 0 ∧ completion.res ≠ -ENOENT ∧ completion.res ≠ -EALREADY then
        { s with flushDiagnostic := some (-completion.res).toNat }
      else s
    s.retireIfDrained op
  | .target op => (s.setOp op { s.ops op with result := completion.res }).retireIfDrained op

/-- The part of `submit_operation_locked` up to the second `publish_rw`, and whether the entry was
published. -/
def publishOperation (s : State) (op : Address) (c : Choice) : State × Bool :=
  match s.kernel.publishRw (s.ops op).request (.target op) with
  | (kernel, true) => ({ s with kernel := kernel }, true)
  | (_, false) =>
    let s := s.flush (c.republish op)
    match s.kernel.publishRw (s.ops op).request (.target op) with
    | (kernel, true) => ({ s with kernel := kernel }, true)
    | (_, false) => (s, false)

/-- `submit_operation_locked`, and whether the operation was accepted. -/
def submitLocked (s : State) (op : Address) (c : Choice) : State × Bool :=
  match s.publishOperation op c with
  | (s, false) => (s, false)
  | (s, true) =>
    let error := (s.kernel.flushPublished (c.submit op)).2
    let s := s.flush (c.submit op)
    if error.any (fun error => error ≠ EBUSY) then
      match s.kernel.tryRetractLastUnconsumed with
      | (kernel, true) => ({ s with kernel := kernel }, false)
      | (_, false) => (s, true)
    else (s, true)

/-- The body of the loop of `process_submissions_locked`. -/
def process (s : State) (op : Address) (c : Choice) : State :=
  let s := s.setOp op { s.ops op with submissionPending := false }
  if s.stopped ∨ (s.ops op).cancelRequested then
    (s.setOp op { s.ops op with cancelRequested := true, result := -ECANCELED }).retireIfDrained op
  else
    match s.submitLocked op c with
    | (s, true) => s
    | (s, false) => (s.setOp op { s.ops op with result := -ENOBUFS }).retireIfDrained op

/-- `process_submissions_locked`, from a submission of the queue on. -/
def processSubmissions (s : State) (c : Choice) : List Address → State
  | [] => s
  | op :: rest => ({ s with submissions := rest }.process op c).processSubmissions c rest

/-- `submit_operation`, and whether the operation was accepted. -/
def submitOperation (s : State) (op : Address) : State × Bool :=
  let o := s.ops op
  if s.closed ∨ s.stopped ∨ s.pollerDone ∨ o.tokenStopped then (s, false)
  else
    ({ s with
      operations := op :: s.operations
      submissions := s.submissions ++ [op] }.setOp op
        { o with request := o.awaitable.request, phase := .suspended, registered := true }
      |>.signalPoller, true)

/-- `close`. -/
def close (s : State) : State := { s with closed := true }.submitWakeup

/-- `request_stop`. -/
def requestStop (s : State) : State :=
  ({ s with stopped := true }.cancelAll s.operations).submitWakeup

/-- `shutdown`. -/
def shutdown (s : State) : State :=
  ({ s with closed := true, stopped := true }.cancelAll s.operations).submitWakeup

/-- The condition of `run` to exit. -/
def shouldExit (s : State) : Bool :=
  (s.closed ∨ s.stopped) ∧ s.operations = [] ∧ s.submissions = [] ∧ s.wakeupNeeded = false ∧
    s.wakeupPublished = false ∧ s.wakeupInFlight = false

/-! ## The threads -/

/-- A step of `run`. -/
def poll (s : State) (c : Choice) : Option State :=
  match s.poller with
  | .starting => some { s with poller := .submitting }
  | .submitting =>
    let s := s.processSubmissions c s.submissions
    let error := (s.kernel.flushPublished c.flush).2
    let s := s.flush c.flush
    let retry := error.any fun error => error ≠ EBUSY
    some { s with poller := if retry = false ∧ s.ready = [] then .waiting else .scanning retry }
  | .waiting =>
    let s := { s with wakeFd := s.wakeFd && !c.reads }
    if c.wait.any fun error => error ≠ EINTR ∧ error ≠ EAGAIN ∧ error ≠ EBUSY then
      some { s with pollerError := c.wait, pollerDone := true, poller := .exited }
    else some { s with poller := .scanning false }
  | .scanning retry => some { s with poller := .draining s.kernel.cq.length retry }
  | .draining 0 retry => some { s with ready := [], poller := .resuming s.ready retry }
  | .draining (left + 1) retry =>
    match s.kernel.cq with
    | [] => none
    | completion :: cq =>
      some ({ s with
        kernel := { s.kernel with cq := cq }
        poller := .draining left retry }.complete completion)
  | .resuming (op :: batch) retry =>
    let o := s.ops op
    some ({ s with poller := .resuming batch retry }.setOp op
      { o with stage := .resuming, resumptions := o.resumptions + 1 })
  | .resuming [] _ =>
    let s := s.retryParkedCancels c.flush
    let s := if s.wakeupNeeded then s.submitWakeup else s
    some (if s.shouldExit then { s with pollerDone := true, poller := .exited }
      else { s with poller := .submitting })
  | .exited => none

/-- A step of `await_suspend` or `await_resume`. -/
def advance (s : State) (op : Address) : Option State :=
  let o := s.ops op
  match o.stage with
  | .idle => none
  | .check =>
    if o.tokenStopped then some (s.setOp op { o with outcome := .stopped, stage := .resuming })
    else if o.awaitable.size = 0 then
      some (s.setOp op { o with outcome := .inlineValue, stage := .resuming })
    else some (s.setOp op { o with stage := .install })
  | .install =>
    if o.awaitable.stopPossible then
      if o.tokenStopped then
        -- The constructor of the callback calls it at once.
        some (s.setOp op { o with callback := .running, stage := .installing })
      else some (s.setOp op { o with callback := .armed, stage := .submitting })
    else some (s.setOp op { o with stage := .submitting })
  | .installing =>
    if o.callback = .spent then some (s.setOp op { o with stage := .submitting }) else none
  | .submitting =>
    match s.setOp op { o with outcome := .submitted } |>.submitOperation op with
    | (s, true) => some (s.setOp op { s.ops op with stage := .suspended })
    | (s, false) => some (s.setOp op { s.ops op with stage := .refused })
  | .refused =>
    if o.callback = .running then none
    else some (s.setOp op { o with callback := .absent, outcome := .stopped, stage := .resuming })
  | .suspended => none
  | .resuming =>
    if o.callback = .running then none
    else some (s.setOp op { o with callback := .absent, stage := .finished })
  | .finished => none

end State

/-- A step of the system. An awaitable is created where none lives, and its token is stopped by any
thread, which then runs the callback. -/
inductive Label where
  | create (op : Address) (awaitable : Awaitable)
  | await (op : Address)
  | advance (op : Address)
  | stopToken (op : Address)
  | runCallback (op : Address)
  | requestCancel (op : Address)
  | close
  | requestStop
  | shutdown
  | poll (c : Choice)
  | post (userData : UserData) (res : ℤ)

namespace State

def step (s : State) : Label → Option State
  | .create op awaitable =>
    if (s.ops op).stage = .idle ∨ (s.ops op).stage = .finished then
      some (s.setOp op { awaitable := awaitable })
    else none
  | .await op =>
    if (s.ops op).stage = .idle then some (s.setOp op { s.ops op with stage := .check }) else none
  | .advance op => s.advance op
  | .stopToken op =>
    if (s.ops op).awaitable.stopPossible then
      some (s.setOp op { s.ops op with tokenStopped := true })
    else none
  | .runCallback op =>
    if (s.ops op).tokenStopped ∧ (s.ops op).callback = .armed then
      some (s.setOp op { s.ops op with callback := .running })
    else none
  | .requestCancel op =>
    if (s.ops op).callback = .running then
      let s := s.requestCancel op
      some (s.setOp op { s.ops op with callback := .spent })
    else none
  | .close => some s.close
  | .requestStop => some s.requestStop
  | .shutdown => some s.shutdown
  | .poll c => s.poll c
  | .post userData res => (s.kernel.post userData res).map fun kernel => { s with kernel := kernel }

/-- The rings are empty and nothing was started. -/
def IsInitial (s : State) : Prop := ∃ entries, s = { kernel := { entries := entries } }

end State

end CCForge.UringContext
