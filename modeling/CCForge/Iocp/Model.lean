import CCForge.Iocp.Kernel
import CCForge.Lib.Run
import Mathlib.Data.Finset.Card
import Mathlib.Order.Lattice.Nat

/-!
# Operations of the completion port

Each section under the mutex of the context is one step, as is each atomic operation on a
record. The start of an operation, its stop callback and the worker run on threads of their own,
and any thread may cancel, close or stop the context. Each operation has a stop token of its own.
-/

namespace CCForge.Iocp

/-- An exception that a receiver is completed with. -/
inductive Failure where
  | system (code : ErrorCode) (what : String)
  | thrown
  deriving DecidableEq, Repr

inductive Completion where
  | value (bytes : ℕ)
  | error (failure : Failure)
  | stopped
  deriving DecidableEq, Repr

/-- `__start_result`. -/
inductive StartResult where
  | accepted
  | value (bytes : ℕ)
  | stopped
  | error (failure : Failure)
  deriving DecidableEq, Repr

/-- `__association_state`. -/
structure Association where
  active : ℕ := 0
  skipsCompletionOnSuccess : Bool := false
  deriving DecidableEq, Repr

/-- The arguments of an operation. `size` is the size of the buffer. -/
structure Request where
  handle : Handle
  kind : OperationKind := .read
  size : ℕ := 1
  hasState : Bool := true
  stopPossible : Bool := false
  deriving DecidableEq, Repr

/-- Where a `complete_*` is. -/
inductive CompleteStage where
  | claim
  | teardown
  | receiver
  deriving DecidableEq, Repr

/-- Where the start of an operation is. -/
inductive Stage where
  | idle
  | check
  | install
  | installing
  | locked
  | accepted
  | cancelling
  | waking
  | completing (completion : Completion) (stage : CompleteStage)
  | returned
  deriving DecidableEq, Repr

/-- The stop callback of a record: not there, waiting for the stop of the token, in execution, or
executed. -/
inductive Callback where
  | absent
  | armed
  | storing
  | cancelling
  | waking
  | spent
  deriving DecidableEq, Repr

/-- Whether `stop_callback.reset()` has to wait for the callback. -/
def Callback.runs : Callback → Bool
  | .storing | .cancelling | .waking => true
  | _ => false

/-- Who completes a receiver: the start of its operation or the worker. -/
inductive Party where
  | start
  | worker
  deriving DecidableEq, Repr

structure Op where
  request : Request
  tokenStopped : Bool := false
  stopRequested : Bool := false
  done : Bool := false
  callback : Callback := .absent
  stage : Stage := .idle
  completions : List (Party × Completion) := []
  deriving DecidableEq, Repr

inductive WorkerStage where
  | starting
  | waiting
  | draining (op : OpId) (ok : Bool) (bytes : ℕ) (error : ErrorCode)
  | completing (op : OpId) (completion : Completion) (stage : CompleteStage)
  | checking
  | leaving
  | exited
  deriving DecidableEq, Repr

/-- The context, the kernel and the threads. `mismatch` tells that a guard of a counter found a
counter at zero, `started` lists the operations that were started, and `wakesDue` counts the calls
of `cancel`, `close` and `request_stop` that have not yet woken the worker. -/
structure State where
  kernel : Kernel := {}
  forceCompletionPacketsOnSuccess : Bool := false
  pendingRecords : Finset OpId := ∅
  associatedHandles : Handle → Option Association := fun _ => none
  closed : Bool := false
  stopped : Bool := false
  workerDone : Bool := false
  pending : ℕ := 0
  ops : OpId → Op
  worker : WorkerStage := .starting
  wakesDue : ℕ := 0
  mismatch : Bool := false
  started : List OpId := []

/-- What is not decided by the code: what the calls of the kernel report, and which allocations
throw. -/
structure Choice where
  invalid : Handle → Bool := fun _ => true
  associate : Option ErrorCode := none
  entryThrows : Bool := false
  setsMode : Bool := true
  throws : Bool := false
  issued : Issued := .failed errorIoPending
  wakes : Bool := true

/-- `__windows_read_eof_error`. -/
def windowsReadEofError (code : ErrorCode) : Bool :=
  code = errorHandleEof ∨ code = errorBrokenPipe ∨ code = errorPipeNotConnected

/-- `__windows_transfer_size`. -/
def windowsTransferSize (byteCount : ℕ) : ℕ := min byteCount (2 ^ 32 - 1)

/-- What `complete` makes of a packet. -/
def packetCompletion (kind : OperationKind) (ok : Bool) (bytes : ℕ) (error : ErrorCode) : Completion :=
  if ok then .value bytes
  else if kind = .read ∧ error = errorMoreData then .value bytes
  else if kind = .read ∧ windowsReadEofError error = true then .value 0
  else if error = errorOperationAborted then .stopped
  else .error (.system error "forge::io IOCP completion")

namespace State

def handleOf (s : State) (op : OpId) : Handle := (s.ops op).request.handle

def setOp (s : State) (op : OpId) (o : Op) : State :=
  { s with ops := Function.update s.ops op o }

def setStage (s : State) (op : OpId) (stage : Stage) : State :=
  s.setOp op { s.ops op with stage := stage }

def setAssociation (s : State) (handle : Handle) (association : Association) : State :=
  { s with associatedHandles := Function.update s.associatedHandles handle (some association) }

/-- The active operations of an association, none where there is no association. -/
def active (s : State) (handle : Handle) : ℕ :=
  match s.associatedHandles handle with
  | none => 0
  | some association => association.active

/-! ## The sections under the mutex -/

/-- `handle_is_invalid`, where `reported` is what the kernel says of a handle that is not open. -/
def handleIsInvalid (s : State) (handle : Handle) (reported : Bool) : Bool :=
  handle = 0 ∨ handle = invalidHandleValue ∨ (s.kernel.objects handle = none ∧ reported = true)

/-- `prune_idle_associations_locked`. -/
def pruneIdleAssociations (s : State) (reported : Handle → Bool) : State :=
  { s with
    associatedHandles := fun handle =>
      match s.associatedHandles handle with
      | none => none
      | some association =>
        if association.active = 0 ∧ s.handleIsInvalid handle (reported handle) = true then none
        else some association }

/-- `decrement_association_locked`. -/
def decrementAssociation (s : State) (handle : Handle) : State :=
  match s.associatedHandles handle with
  | none => { s with mismatch := true }
  | some association =>
    if association.active = 0 then { s with mismatch := true }
    else s.setAssociation handle { association with active := association.active - 1 }

/-- The association of a handle that was just associated. The mode is requested where the entry is
new or nothing is pending on it. -/
def requestMode (s : State) (handle : Handle) (c : Choice) : State :=
  let request (s : State) (association : Association) : State :=
    if s.forceCompletionPacketsOnSuccess then
      s.setAssociation handle { association with skipsCompletionOnSuccess := false }
    else
      { s with kernel := s.kernel.setSkips handle c.setsMode }.setAssociation handle
        { association with skipsCompletionOnSuccess := c.setsMode }
  match s.associatedHandles handle with
  | none => request s {}
  | some association => if association.active = 0 then request s association else s

/-- The record is registered. -/
def register (s : State) (op : OpId) (association : Association) : State :=
  { s with
    pendingRecords := insert op s.pendingRecords
    pending := s.pending + 1 }.setAssociation (s.handleOf op)
      { association with active := association.active + 1 }

/-- The record is taken out again by the start that registered it. -/
def unregister (s : State) (op : OpId) : State :=
  let s := { s with pendingRecords := s.pendingRecords.erase op }.decrementAssociation (s.handleOf op)
  { s with pending := s.pending - 1 }

/-- `issue_locked`. -/
def issue (s : State) (op : OpId) (issued : Issued) : State :=
  let request := (s.ops op).request
  let call : IoCall :=
    { handle := request.handle, kind := request.kind, bytes := windowsTransferSize request.size }
  { s with kernel := s.kernel.issue op call issued }

/-- The part of `__state::start` after the association is known. Without result, it throws. -/
def submit (s : State) (op : OpId) (association : Association) (c : Choice) :
    State × Option StartResult :=
  let kind := (s.ops op).request.kind
  if c.throws then (s, none)
  else
    let s := (s.register op association).issue op c.issued
    match c.issued with
    | .failed error =>
      if error = errorIoPending ∨ (kind = .read ∧ error = errorMoreData) then (s, some .accepted)
      else if kind = .read ∧ windowsReadEofError error = true then (s.unregister op, some (.value 0))
      else (s.unregister op, some (.error (.system error "forge::io IOCP issue")))
    | .succeeded bytes =>
      if association.skipsCompletionOnSuccess = false then (s, some .accepted)
      else (s.unregister op, some (.value bytes))

/-- `__state::start`. -/
def start (s : State) (op : OpId) (c : Choice) : Option (State × Option StartResult) :=
  let handle := s.handleOf op
  if s.closed ∨ s.stopped then some (s, some .stopped)
  else if handle = 0 ∨ handle = invalidHandleValue then
    some (s, some (.error (.system errorInvalidHandle "forge::io IOCP invalid handle")))
  else if (s.ops op).stopRequested then some (s, some .stopped)
  else
    let s := s.pruneIdleAssociations c.invalid
    (s.kernel.associate handle c.associate).map fun kernel =>
      let s := { s with kernel := kernel }
      match c.associate with
      | some error =>
        match s.associatedHandles handle with
        | none =>
          (s, some (.error (.system error "CreateIoCompletionPort associate handle")))
        | some association =>
          if error ≠ errorInvalidParameter then
            (s, some (.error (.system error "CreateIoCompletionPort associate handle")))
          else s.submit op association c
      | none =>
        if s.associatedHandles handle = none ∧ c.entryThrows then (s, none)
        else
          let s := s.requestMode handle c
          match s.associatedHandles handle with
          | none => (s, none)
          | some association => s.submit op association c

/-- `cancel`. -/
def cancel (s : State) (handle : Handle) : State :=
  { s with
    kernel := s.kernel.cancelIo fun op => op ∈ s.pendingRecords ∧ s.handleOf op = handle
    wakesDue := s.wakesDue + 1 }

/-- The section of `cancel_record`, and whether the record was found. -/
def cancelRecord (s : State) (target : OpId) : State × Bool :=
  if target ∈ s.pendingRecords then
    ({ s with kernel := s.kernel.cancelIo fun op => op = target }, true)
  else (s, false)

/-- `close`. -/
def close (s : State) : State := { s with closed := true, wakesDue := s.wakesDue + 1 }

/-- `request_stop`. -/
def requestStop (s : State) : State :=
  { s with
    stopped := true
    kernel := s.kernel.cancelIo fun op => op ∈ s.pendingRecords
    wakesDue := s.wakesDue + 1 }

/-- `wake_worker`. -/
def wakeWorker (s : State) (c : Choice) : State := { s with kernel := s.kernel.postWake c.wakes }

/-- The section of `complete`, and whether the record was found. -/
def take (s : State) (op : OpId) : State × Bool :=
  if op ∈ s.pendingRecords then
    let s := { s with pendingRecords := s.pendingRecords.erase op }.decrementAssociation (s.handleOf op)
    if 0 < s.pending then ({ s with pending := s.pending - 1 }, true)
    else ({ s with mismatch := true }, true)
  else (s, false)

def shouldExit (s : State) : Bool := (s.closed ∨ s.stopped) ∧ s.pending = 0

/-! ## The threads -/

/-- A step of `complete_value`, `complete_error` or `complete_stopped`, with where it goes on.
`stop_callback.reset()` waits for a callback in execution. -/
def complete (s : State) (op : OpId) (party : Party) (completion : Completion) :
    CompleteStage → Option (State × Option CompleteStage)
  | .claim =>
    if (s.ops op).done then some (s, none)
    else some (s.setOp op { s.ops op with done := true }, some .teardown)
  | .teardown =>
    if (s.ops op).callback.runs then none
    else some (s.setOp op { s.ops op with callback := .absent }, some .receiver)
  | .receiver =>
    some (s.setOp op
      { s.ops op with completions := (s.ops op).completions ++ [(party, completion)] }, none)

/-- Where `__op::start` goes on with the result of `__state::start`. -/
def afterStart : Option StartResult → Stage
  | some .accepted => .accepted
  | some (.value bytes) => .completing (.value bytes) .claim
  | some .stopped => .completing .stopped .claim
  | some (.error failure) => .completing (.error failure) .claim
  | none => .completing (.error .thrown) .claim

/-- A step of `__op::start`. -/
def advanceStart (s : State) (op : OpId) (c : Choice) : Option State :=
  let o := s.ops op
  match o.stage with
  | .idle => none
  | .check =>
    if o.request.hasState = false ∨ o.tokenStopped then
      some (s.setStage op (.completing .stopped .claim))
    else if o.request.size = 0 then some (s.setStage op (.completing (.value 0) .claim))
    else some (s.setStage op .install)
  | .install =>
    if o.done then some (s.setStage op .returned)
    else if c.throws then some (s.setStage op (.completing .stopped .claim))
    else if o.request.stopPossible then
      if o.tokenStopped then
        -- The constructor of the callback calls it at once.
        some (s.setOp op { o with callback := .storing, stage := .installing })
      else some (s.setOp op { o with callback := .armed, stage := .locked })
    else some (s.setStage op .locked)
  | .installing => if o.callback = .spent then some (s.setStage op .locked) else none
  | .locked => (s.start op c).map fun (s, result) => s.setStage op (afterStart result)
  | .accepted => some (s.setStage op (if o.stopRequested then .cancelling else .returned))
  | .cancelling =>
    let (s, found) := s.cancelRecord op
    some (s.setStage op (if found then .waking else .returned))
  | .waking => some ((s.wakeWorker c).setStage op .returned)
  | .completing completion stage =>
    (s.complete op .start completion stage).map fun (s, next) =>
      s.setStage op (next.elim .returned (.completing completion))
  | .returned => none

/-- A step of the stop callback. -/
def advanceCallback (s : State) (op : OpId) (c : Choice) : Option State :=
  match (s.ops op).callback with
  | .storing => some (s.setOp op { s.ops op with stopRequested := true, callback := .cancelling })
  | .cancelling =>
    let (s, found) := s.cancelRecord op
    some (s.setOp op { s.ops op with callback := if found then .waking else .spent })
  | .waking => some ((s.wakeWorker c).setOp op { s.ops op with callback := .spent })
  | _ => none

/-- A step of `run`. -/
def work (s : State) : Option State :=
  match s.worker with
  | .starting => some { s with worker := .waiting }
  | .waiting =>
    match s.kernel.port with
    | [] => none
    | packet :: port =>
      let s := { s with kernel := { s.kernel with port := port } }
      match packet.overlapped with
      | none => some { s with worker := .checking }
      | some op => some { s with worker := .draining op packet.ok packet.bytes packet.error }
  | .draining op ok bytes error =>
    let (s, found) := s.take op
    let completion := packetCompletion (s.ops op).request.kind ok bytes error
    some { s with worker := if found then .completing op completion .claim else .checking }
  | .completing op completion stage =>
    (s.complete op .worker completion stage).map fun (s, next) =>
      { s with worker := next.elim .checking (.completing op completion) }
  | .checking => some { s with worker := if s.shouldExit then .leaving else .waiting }
  | .leaving => some { s with workerDone := true, worker := .exited }
  | .exited => none

end State

/-- A step of the system. `runCallback` is a request of the stop of the token that comes to the
callback, and in `timeout` the worker has waited for a packet in vain. A handle is closed only
while none of its operations is pending. -/
inductive Label where
  | start (op : OpId)
  | advance (op : OpId) (c : Choice)
  | stopToken (op : OpId)
  | runCallback (op : OpId)
  | advanceCallback (op : OpId) (c : Choice)
  | work
  | timeout
  | post (op : OpId) (ok : Bool) (bytes : ℕ) (error : ErrorCode)
  | cancel (handle : Handle)
  | close
  | requestStop
  | wake (c : Choice)
  | openHandle (handle : Handle)
  | closeHandle (handle : Handle)

namespace State

def step (s : State) : Label → Option State
  | .start op =>
    if (s.ops op).stage = .idle then some { s.setStage op .check with started := s.started ++ [op] }
    else none
  | .advance op c => s.advanceStart op c
  | .stopToken op =>
    if (s.ops op).request.stopPossible then
      some (s.setOp op { s.ops op with tokenStopped := true })
    else none
  | .runCallback op =>
    if (s.ops op).tokenStopped ∧ (s.ops op).callback = .armed then
      some (s.setOp op { s.ops op with callback := .storing })
    else none
  | .advanceCallback op c => s.advanceCallback op c
  | .work => s.work
  | .timeout => if s.worker = .waiting then some { s with worker := .checking } else none
  | .post op ok bytes error =>
    (s.kernel.post op ok bytes error).map fun kernel => { s with kernel := kernel }
  | .cancel handle => some (s.cancel handle)
  | .close => some s.close
  | .requestStop => some s.requestStop
  | .wake c =>
    if 0 < s.wakesDue then some ({ s with wakesDue := s.wakesDue - 1 }.wakeWorker c) else none
  | .openHandle handle =>
    if handle ≠ 0 ∧ handle ≠ invalidHandleValue ∧ s.kernel.objects handle = none then
      some { s with kernel := s.kernel.setObject handle (some {}) }
    else none
  | .closeHandle handle =>
    if ∀ op ∈ s.pendingRecords, s.handleOf op ≠ handle then
      some { s with kernel := s.kernel.setObject handle none }
    else none

/-- No handle is open and no operation started. -/
def IsInitial (s : State) : Prop :=
  ∃ (force : Bool) (requests : OpId → Request),
    s = { forceCompletionPacketsOnSuccess := force, ops := fun op => { request := requests op } }

end State

end CCForge.Iocp
