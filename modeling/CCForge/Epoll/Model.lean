import CCForge.Epoll.Registry
import CCForge.Lib.Run

/-!
# Readiness operations

An operation is known by its record. Threads start operations, destroy them, cancel and close,
and one of them polls. Each thread has a stack of frames, innermost first, and a step is what
the innermost frame of one thread does up to the next atomic operation or section under the
mutex. User code runs on an empty stack and in the completion of a receiver, from where it may
call anything.

Each operation has a stop token of its own. The code that requests the stop of a token runs the
stop callback at any later time, on any thread. The state of the context outlives the run.
-/

namespace CCForge.Epoll

abbrev ThreadId := ℕ

/-- The stop callback of a record: not there, waiting for the stop of the token, in execution, or
executed. -/
inductive Callback where
  | absent
  | armed
  | running (thread : ThreadId)
  | spent
  deriving DecidableEq, Repr

/-- A record with its operation. `completions` is what the receiver was completed with,
`abandoned` says that the destructor claimed the completion, and `destroyed` is the thread on
which the destructor returned. -/
structure Op where
  stopPossible : Bool := false
  tokenStopped : Bool := false
  started : Bool := false
  startReturned : Bool := false
  stopRequested : Bool := false
  done : Bool := false
  delivered : Bool := false
  completingThread : Option ThreadId := none
  callback : Callback := .absent
  completions : List Completion := []
  destroying : Bool := false
  abandoned : Bool := false
  destroyed : Option ThreadId := none
  deriving DecidableEq, Repr

/-- Where a `start` is. -/
inductive StartStage where
  | check
  | install
  | locked
  | recheck
  | returning
  deriving DecidableEq, Repr

/-- Where a `complete_*` is. In `teardown` it is known who won the claim. -/
inductive CompleteStage where
  | claim
  | teardown (won : Bool)
  | receiver
  | deliver
  deriving DecidableEq, Repr

/-- Where a destructor is that did not return at once. -/
inductive DestroyStage where
  | discard
  | reset
  | wait
  deriving DecidableEq, Repr

inductive Frame where
  | start (record : Record) (stage : StartStage)
  | callback (record : Record) (requested : Bool)
  | cancelRecord (record : Record)
  | finish (count : ℕ)
  | batch (queue : List Action) (count : ℕ)
  | complete (record : Record) (completion : Completion) (stage : CompleteStage)
  | destroy (record : Record) (stage : DestroyStage)
  deriving DecidableEq, Repr

structure State where
  registry : Registry
  ops : Record → Op
  stack : ThreadId → List Frame

/-- What is not decided by the code: whether a call throws, and what calls of `epoll_ctl` do. -/
structure Choice where
  throws : Bool := false
  fails : Fails := {}
  again : Fails := {}
  deriving DecidableEq, Repr

def badAlloc : SystemError := { code := 12, what := "std::bad_alloc" }

namespace State

def setStack (s : State) (t : ThreadId) (frames : List Frame) : State :=
  { s with stack := Function.update s.stack t frames }

def setOp (s : State) (record : Record) (op : Op) : State :=
  { s with ops := Function.update s.ops record op }

/-- `run_reserved_actions`: the batch is run on top of the given frames. -/
def runReserved (s : State) (t : ThreadId) (actions : List Action) (frames : List Frame) : State :=
  if actions = [] then s.setStack t frames
  else s.setStack t (.batch actions actions.length :: frames)

/-- Whether `stop_callback.reset()` on the thread has to wait for the callback. -/
def resetBlocked (s : State) (t : ThreadId) (record : Record) : Prop :=
  ∃ u, (s.ops record).callback = .running u ∧ u ≠ t

instance (s : State) (t : ThreadId) (record : Record) : Decidable (s.resetBlocked t record) :=
  match h : (s.ops record).callback with
  | .running u =>
    if hu : u = t then isFalse fun ⟨v, hv, hne⟩ => hne (by rw [h] at hv; cases hv; exact hu)
    else isTrue ⟨u, h, hu⟩
  | .absent => isFalse fun ⟨_, hv, _⟩ => by rw [h] at hv; cases hv
  | .armed => isFalse fun ⟨_, hv, _⟩ => by rw [h] at hv; cases hv
  | .spent => isFalse fun ⟨_, hv, _⟩ => by rw [h] at hv; cases hv

/-- `is_pending_on_this_thread`. -/
def isPending (record : Record) (frames : List Frame) : Bool :=
  frames.any fun frame =>
    match frame with
    | .batch queue _ => queue.any fun action => action.1 = record
    | _ => false

/-! ## The frames -/

/-- A step of `__op::start`, of `install_stop_callback` and of `__state::start`. -/
def advanceStart (s : State) (t : ThreadId) (record : Record) (stage : StartStage)
    (rest : List Frame) (c : Choice) : Option State :=
  let op := s.ops record
  match stage with
  | .check =>
    if op.tokenStopped then
      some (s.setStack t (.complete record .stopped .claim :: .start record .returning :: rest))
    else some (s.setStack t (.start record .install :: rest))
  | .install =>
    if op.done then some (s.setStack t (.start record .returning :: rest))
    else if c.throws then
      some (s.setStack t (.complete record .stopped .claim :: .start record .returning :: rest))
    else if op.stopPossible then
      if op.tokenStopped then
        -- The constructor of the callback calls it at once.
        some ((s.setOp record { op with callback := .running t }).setStack t
          (.callback record false :: .start record .locked :: rest))
      else
        some ((s.setOp record { op with callback := .armed }).setStack t
          (.start record .locked :: rest))
    else some (s.setStack t (.start record .locked :: rest))
  | .locked =>
    if c.throws then
      -- Only a new entry of the table is allocated.
      if ¬(s.registry.closed ∨ s.registry.stopped) ∧ ¬record.fd < 0 ∧
          s.registry.fdWaiters record.fd = none then
        some (s.setStack t
          (.complete record (.error badAlloc) .claim :: .start record .returning :: rest))
      else none
    else
      let (registry, actions, becamePending) := s.registry.start record c.fails c.again
      let s := { s with registry := registry }
      if becamePending then some (s.runReserved t actions (.start record .recheck :: rest))
      else some (s.runReserved t actions (.start record .returning :: rest))
  | .recheck =>
    if op.stopRequested then
      some (s.setStack t (.cancelRecord record :: .start record .returning :: rest))
    else some (s.setStack t (.start record .returning :: rest))
  | .returning => some ((s.setOp record { op with startReturned := true }).setStack t rest)

/-- A step of the stop callback. -/
def advanceCallback (s : State) (t : ThreadId) (record : Record) (requested : Bool)
    (rest : List Frame) : State :=
  let op := s.ops record
  if requested then
    let callback := if op.callback = .running t then .spent else op.callback
    (s.setOp record { op with callback := callback }).setStack t rest
  else
    (s.setOp record { op with stopRequested := true }).setStack t
      (.cancelRecord record :: .callback record true :: rest)

/-- The section of `cancel_record`. -/
def advanceCancel (s : State) (t : ThreadId) (record : Record) (rest : List Frame) (c : Choice) :
    State :=
  let (registry, found) := s.registry.extract record true c.fails
  let s := { s with registry := registry }
  if found then s.setStack t (.complete record .stopped .claim :: .finish 1 :: rest)
  else s.setStack t rest

def finish (s : State) (t : ThreadId) (count : ℕ) (rest : List Frame) : State :=
  { s with registry := s.registry.finishDeliveries count }.setStack t rest

/-- A step of `complete_value`, `complete_error` or `complete_stopped`. The store of the completing
thread becomes visible with the claim. After the teardown the winner calls the receiver. -/
def advanceComplete (s : State) (t : ThreadId) (record : Record) (completion : Completion)
    (stage : CompleteStage) (rest : List Frame) : Option State :=
  let op := s.ops record
  match stage with
  | .claim =>
    some ((s.setOp record { op with completingThread := some t, done := true }).setStack t
      (.complete record completion (.teardown !op.done) :: rest))
  | .teardown won =>
    if s.resetBlocked t record then none
    else if won then
      let completions := op.completions ++ [completion]
      some ((s.setOp record { op with callback := .absent, completions := completions }).setStack t
        (.complete record completion .receiver :: rest))
    else
      some ((s.setOp record { op with callback := .absent }).setStack t
        (.complete record completion .deliver :: rest))
  | .receiver => some (s.setStack t (.complete record completion .deliver :: rest))
  | .deliver => some ((s.setOp record { op with delivered := true }).setStack t rest)

/-- A step of the destructor after its claim. -/
def advanceDestroy (s : State) (t : ThreadId) (record : Record) (stage : DestroyStage)
    (rest : List Frame) (c : Choice) : Option State :=
  let op := s.ops record
  match stage with
  | .discard =>
    let (registry, found) := s.registry.extract record false c.fails
    let s := { s with registry := registry }
    if found ∨ isPending record rest then some (s.setStack t (.destroy record .reset :: rest))
    else some (s.setStack t (.destroy record .wait :: rest))
  | .reset =>
    if s.resetBlocked t record then none
    else
      some ((s.setOp record { op with callback := .absent, destroyed := some t }).setStack t rest)
  | .wait =>
    if op.delivered then some ((s.setOp record { op with destroyed := some t }).setStack t rest)
    else none

/-- A step of the innermost frame of a thread. -/
def advance (s : State) (t : ThreadId) (c : Choice) : Option State :=
  match s.stack t with
  | [] => none
  | .start record stage :: rest => s.advanceStart t record stage rest c
  | .callback record requested :: rest => some (s.advanceCallback t record requested rest)
  | .cancelRecord record :: rest => some (s.advanceCancel t record rest c)
  | .finish count :: rest => some (s.finish t count rest)
  | .batch [] count :: rest => some (s.finish t count rest)
  | .batch ((record, completion) :: queue) count :: rest =>
    some (s.setStack t (.complete record completion .claim :: .batch queue count :: rest))
  | .complete record completion stage :: rest => s.advanceComplete t record completion stage rest
  | .destroy record stage :: rest => s.advanceDestroy t record stage rest c

/-! ## The calls -/

/-- Whether user code runs on the thread. -/
def atUser (s : State) (t : ThreadId) : Bool :=
  match s.stack t with
  | [] => true
  | .complete _ _ .receiver :: _ => true
  | _ => false

/-- What user code calls. `runCallback` is a request of the stop of the token that comes to the
callback of the record. -/
inductive Call where
  | start (record : Record)
  | destroy (record : Record)
  | cancel (fd : ℤ) (fails : Fails)
  | close
  | requestStop (fails : ℤ → Fails)
  | stopToken (record : Record)
  | runCallback (record : Record)

/-- The claim of the destructor. An operation is destroyed once, before its start, or when the
start has returned or the receiver has been completed. -/
def destroy (s : State) (t : ThreadId) (record : Record) : Option State :=
  let op := { s.ops record with destroying := true }
  if (s.ops record).destroying ∨
      ((s.ops record).started ∧ ¬(s.ops record).startReturned ∧ (s.ops record).completions = []) then
    none
  else if ¬(s.ops record).started then some (s.setOp record { op with destroyed := some t })
  else if (s.ops record).done then
    if (s.ops record).completingThread = some t then
      some (s.setOp record { op with destroyed := some t })
    else some ((s.setOp record op).setStack t (.destroy record .wait :: s.stack t))
  else
    some ((s.setOp record { op with done := true, abandoned := true }).setStack t
      (.destroy record .discard :: s.stack t))

def call (s : State) (t : ThreadId) : Call → Option State
  | .start record =>
    if (s.ops record).started ∨ (s.ops record).destroying then none
    else
      some ((s.setOp record { s.ops record with started := true }).setStack t
        (.start record .check :: s.stack t))
  | .destroy record => s.destroy t record
  | .cancel fd fails =>
    let (registry, actions) := s.registry.cancel fd fails
    some ({ s with registry := registry }.runReserved t actions (s.stack t))
  | .close => some { s with registry := s.registry.close }
  | .requestStop fails =>
    let (registry, actions) := s.registry.requestStop fails
    some ({ s with registry := registry }.runReserved t actions (s.stack t))
  | .stopToken record =>
    if (s.ops record).stopPossible then
      some (s.setOp record { s.ops record with tokenStopped := true })
    else none
  | .runCallback record =>
    if (s.ops record).tokenStopped ∧ (s.ops record).callback = .armed then
      some ((s.setOp record { s.ops record with callback := .running t }).setStack t
        (.callback record false :: s.stack t))
    else none

end State

/-- A step of the system: a call of user code, a step of the innermost frame of a thread, or an
iteration of the poller. -/
inductive Label where
  | call (t : ThreadId) (call : State.Call)
  | advance (t : ThreadId) (c : Choice)
  | poll (t : ThreadId) (events : List Registry.Polled)
  | pollFailed (t : ThreadId) (error : ℕ) (fails : ℤ → Fails)
  | reorder (keys : List ℤ)

namespace State

def step (s : State) : Label → Option State
  | .call t call => if s.atUser t then s.call t call else none
  | .advance t c => s.advance t c
  | .poll t events =>
    if s.stack t = [] then
      let (registry, actions, _) := s.registry.poll events
      some ({ s with registry := registry }.runReserved t actions [])
    else none
  | .pollFailed t error fails =>
    if s.stack t = [] then
      let (registry, actions) := s.registry.completeAllWithError error fails
      some ({ s with registry := registry }.runReserved t actions [])
    else none
  | .reorder keys =>
    if keys.Perm s.registry.keys then some { s with registry := { s.registry with keys := keys } }
    else none

/-- No operation is started, and it is open which tokens can be stopped. -/
def IsInitial (s : State) : Prop :=
  s.registry.IsInitial ∧ (∀ t, s.stack t = []) ∧
    ∀ record, ∃ stopPossible, s.ops record = { stopPossible := stopPossible }

end State

end CCForge.Epoll
