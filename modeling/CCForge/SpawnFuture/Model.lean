import CCForge.Lib.Run
import Mathlib.Data.Bool.Basic

/-!
# spawn_future

A spawned child and the consumer of its result share one state. The child completes the
state, the consumer takes the result over, and the stop token of the consumer cancels the
state while the child still runs. Whoever marks the state done takes the registered
consumer and delivers to it.

A step is one section under the mutex of the shared state, one exchange of `__active` of
the consumer with the accesses that belong to its winner, one access to the stop token or
the begin of a receiver's completion. The calls run on any threads. Locking the mutex
does not throw. The user does not destroy the operation while `start` runs on it, unless
its completion has begun.
-/

namespace CCForge.SpawnFuture

/-- A completion, and what the result variant holds of it. -/
inductive Completion (V E : Type) where
  | value (values : List V)
  | error (error : E)
  | stopped
  deriving DecidableEq, Repr

/-- Who wrote the result. -/
inductive Writer where
  | child
  | cancel
  deriving DecidableEq, Repr

/-- Where a call of `__try_cancel` stands. -/
inductive Cancel where
  | requesting
  /-- Before the section. -/
  | storing
  /-- It took the consumer and stands before the exchange of `__deliver`. -/
  | notifying
  /-- The exchange was won, the receiver not yet completed. -/
  | sending
  deriving DecidableEq, Repr

/-- Where the child stands, and the call of `__complete_with` it ends in. -/
inductive Child (V E : Type) where
  | fresh
  | running
  /-- Before the first section of `__complete_with`. -/
  | storing (result : Completion V E)
  | notifying
  | sending
  /-- Before the second section. -/
  | releasing
  | finished
  deriving DecidableEq, Repr

/-- Where the call of `start` of the consumer operation stands. -/
inductive Start (E : Type) where
  | idle
  | entered
  /-- In `__try_cancel`. It was called by the constructor of the stop callback where `inCallback`,
  and before that by `__install_stop_callback` itself where not. -/
  | cancelling (cancel : Cancel) (inCallback : Bool)
  /-- Before the stop callback is made. -/
  | registering
  /-- Before the exchange of `__deliver_error`. -/
  | failing (error : E)
  | sendingError (error : E)
  /-- Before the section of `__abandon_unconsumed`. -/
  | unconsumed
  | requesting
  /-- Before the section of `__consume`. -/
  | consuming
  /-- Before the exchange of `__deliver`. -/
  | delivering
  | sending
  /-- Before the exchange of `__deliver_stopped`. -/
  | refused
  | sendingStopped
  | finished
  deriving DecidableEq, Repr

/-- Where the stop callback stands that the requester of the stop runs. -/
inductive Stop where
  | idle
  | running (cancel : Cancel)
  | finished
  deriving DecidableEq, Repr

/-- Where the destructor of the sender or of the operation stands. -/
inductive Destroy where
  | idle
  /-- Before the section of `__abandon_unconsumed`. -/
  | unconsumed
  | requesting
  /-- Before the exchange of `__abandon`. -/
  | exchanging
  /-- The exchange was won. `holds` says that the consumer had a pointer to the state. -/
  | detaching (holds : Bool)
  | requestingLast
  | finished
  deriving DecidableEq, Repr

/-- What was last made for the consumer. `__spawn_future` holds the state while it spawns, the
sender and the operation hold it up to the begin of `start`. -/
inductive Holder where
  | spawning
  | sender
  | op
  | started
  deriving DecidableEq, Repr

inductive Callback where
  | absent
  | registered
  /-- It ran, or it was reset. -/
  | finished
  deriving DecidableEq, Repr

structure State (V E : Type) where
  /-- The scope gave an association. -/
  association : Bool
  /-- The stop token of the consumer can be stopped. -/
  stopPossible : Bool
  tokenStop : Bool := false
  done : Bool := false
  consumerTaken : Bool := false
  result : Option (Completion V E) := none
  /-- `__consumer_cb` is not null. -/
  consumerCb : Bool := false
  keepalive : Bool := false
  /-- A stop was requested from the child. -/
  stopRequested : Bool := false
  active : Bool := true
  /-- `__state` of the consumer is not null. -/
  consumerState : Bool := false
  callback : Callback := .absent
  child : Child V E := .fresh
  holder : Holder := .spawning
  start : Start E := .idle
  stop : Stop := .idle
  destroy : Destroy := .idle
  /-- The child was not started, and `__spawn_future` itself completes the state. -/
  refused : Bool := false
  /-- What the child completed with, or what storing it threw. -/
  childResult : Option (Completion V E) := none
  /-- What the installation of the stop callback threw. -/
  threw : Option E := none
  writes : List (Writer × Completion V E) := []
  completed : List (Completion V E) := []
  /-- The destructor of the operation won the exchange. -/
  abandoned : Bool := false
  /-- How often the association was released. -/
  released : ℕ := 0

variable {V E : Type}

namespace Child

def isFresh : Child V E → Bool
  | .fresh => true
  | _ => false

def isRunning : Child V E → Bool
  | .running => true
  | _ => false

def isFinished : Child V E → Bool
  | .finished => true
  | _ => false

/-- In `__complete_with`. -/
def completing : Child V E → Bool
  | .fresh | .running | .finished => false
  | _ => true

end Child

namespace Start

def isFinished : Start E → Bool
  | .finished => true
  | _ => false

def inProgress : Start E → Bool
  | .idle | .finished => false
  | _ => true

end Start

def Stop.inProgress : Stop → Bool
  | .running _ => true
  | _ => false

/-- The destructor holds the state through the pointer of the consumer. -/
def Destroy.holds : Destroy → Bool
  | .detaching holds => holds
  | .requestingLast => true
  | _ => false

namespace State

/-- The shared state has an owner: the sender, the operation, a call, itself or the consumer. -/
def owned (s : State V E) : Bool :=
  (s.holder != .started && s.destroy != .finished) || s.start.inProgress || s.child.completing ||
    s.stop.inProgress || s.destroy.holds || s.keepalive || s.consumerState

/-- The winner of the exchange moves the pointer to the state out of the consumer. -/
def deactivate (s : State V E) : State V E :=
  { s with active := false, consumerState := false }

/-- The stop callback is reset and the receiver completed. -/
def complete (s : State V E) (completion : Completion V E) : State V E :=
  { s with callback := .finished, completed := s.completed ++ [completion] }

/-- `__deliver_to`. -/
def deliverTo (s : State V E) : State V E :=
  s.complete (s.result.getD .stopped)

def requestStop (s : State V E) : State V E := { s with stopRequested := true }

/-- The section that stores the result and takes the consumer. -/
def store (s : State V E) (writer : Writer) (result : Completion V E) : State V E :=
  { s with
    done := true
    result := some result
    consumerCb := false
    writes := s.writes ++ [(writer, result)] }

/-- The next step of `__try_cancel`, and where the call stands after it. -/
def tryCancel (s : State V E) : Cancel → State V E × Option Cancel
  | .requesting => (s.requestStop, some .storing)
  | .storing =>
    if s.done then (s, none)
    else (s.store .cancel .stopped, if s.consumerCb then some .notifying else none)
  | .notifying => if s.active then (s.deactivate, some .sending) else (s, none)
  | .sending => (s.deliverTo, none)

/-- `__start` up to the start of the child, or `__complete_not_started`. `throws` is what connecting
the child throws. -/
def spawn (s : State V E) (throws : Option E) : State V E :=
  if s.association then
    match throws with
    | none => { s with keepalive := true, child := .running }
    | some error =>
      { s with
        keepalive := true
        refused := true
        child := .storing (.error error)
        childResult := some (.error error) }
  else { s with refused := true, child := .storing .stopped, childResult := some .stopped }

/-- The child completes. `throws` is what storing its result throws. -/
def childCompletes (s : State V E) (completion : Completion V E) (throws : Option E) :
    State V E :=
  if s.owned then
    let result := throws.elim completion .error
    { s with child := .storing result, childResult := some result }
  else { s with child := .finished }

/-- The next step of `__complete_with`. -/
def advanceChild (s : State V E) : Option (State V E) :=
  match s.child with
  | .storing result =>
    if s.done then some { s with child := .releasing }
    else some { s.store .child result with
      child := if s.consumerCb then .notifying else .releasing }
  | .notifying =>
    if s.active then some { s.deactivate with child := .sending }
    else some { s with child := .releasing }
  | .sending => some { s.deliverTo with child := .releasing }
  | .releasing => some { s with keepalive := false, child := .finished }
  | _ => none

/-- The next step of `start`. `throws` is what the access to the stop token throws. -/
def advanceStart (s : State V E) (throws : Option E) : Option (State V E) :=
  match s.start with
  | .idle | .finished => none
  | .entered =>
    match throws with
    | some error =>
      some { s with consumerState := true, start := .failing error, threw := some error }
    | none =>
      some { s with
        consumerState := true
        start := if s.tokenStop then .cancelling .requesting false else .registering }
  | .cancelling cancel inCallback =>
    let (t, next) := s.tryCancel cancel
    match next with
    | some cancel => some { t with start := .cancelling cancel inCallback }
    | none => some { t with start := if inCallback then .consuming else .registering }
  | .registering =>
    match throws with
    | some error => some { s with start := .failing error, threw := some error }
    | none =>
      if ¬s.stopPossible then some { s with start := .consuming }
      else if s.tokenStop then
        some { s with callback := .finished, start := .cancelling .requesting true }
      else some { s with callback := .registered, start := .consuming }
  | .failing error =>
    if s.active then some { s.deactivate with start := .sendingError error }
    else some { s with start := .unconsumed }
  | .sendingError error => some { s.complete (.error error) with start := .unconsumed }
  | .unconsumed =>
    if s.consumerTaken then some { s with start := .finished }
    else some { s with consumerTaken := true, start := if s.done then .finished else .requesting }
  | .requesting => some { s.requestStop with start := .finished }
  | .consuming =>
    if s.consumerTaken then some { s with start := .refused }
    else if s.done then some { s with consumerTaken := true, start := .delivering }
    else some { s with consumerTaken := true, consumerCb := true, start := .finished }
  | .delivering =>
    if s.active then some { s.deactivate with start := .sending }
    else some { s with start := .finished }
  | .sending => some { s.deliverTo with start := .finished }
  | .refused =>
    if s.active then some { s.deactivate with start := .sendingStopped }
    else some { s with start := .finished }
  | .sendingStopped => some { s.complete .stopped with start := .finished }

/-- The next step of the stop callback. -/
def advanceStop (s : State V E) : Option (State V E) :=
  match s.stop with
  | .running cancel =>
    let (t, next) := s.tryCancel cancel
    match next with
    | some cancel => some { t with stop := .running cancel }
    | none => some { t with stop := .finished }
  | _ => none

/-- The next step of the destructor of the sender or of the operation. -/
def advanceDestroy (s : State V E) : Option (State V E) :=
  let next : Destroy := if s.holder = .sender then .finished else .exchanging
  match s.destroy with
  | .idle | .finished => none
  | .unconsumed =>
    if s.consumerTaken then some { s with destroy := next }
    else some { s with consumerTaken := true, destroy := if s.done then next else .requesting }
  | .requesting => some { s.requestStop with destroy := next }
  | .exchanging =>
    if s.active then
      some { s.deactivate with abandoned := true, destroy := .detaching s.consumerState }
    else some { s with destroy := .finished }
  | .detaching true =>
    some { s with consumerCb := false, callback := .finished, destroy := .requestingLast }
  | .detaching false => some { s with callback := .finished, destroy := .finished }
  | .requestingLast => some { s.requestStop with destroy := .finished }

/-- What a step from `s` to `t` releases: the state goes with its last owner. -/
def settle (s t : State V E) : State V E :=
  if s.owned ∧ ¬t.owned then
    { t with released := t.released + if t.association then 1 else 0 }
  else t

end State

inductive Label (V E : Type) where
  | spawn (throws : Option E)
  /-- `__spawn_future` returns the sender. -/
  | returnSender
  | childCompletes (completion : Completion V E) (throws : Option E)
  | advanceChild
  /-- The stop token of the environment of the child is stopped. -/
  | stopChild
  /-- `connect`, and whether it throws. -/
  | connect (throws : Bool)
  | start
  | advanceStart (throws : Option E)
  /-- The stop token of the consumer is stopped. -/
  | stopConsumer
  | runCallback
  | advanceStop
  | destroy
  | advanceDestroy
  deriving DecidableEq, Repr

namespace State

/-- The step without what it releases. -/
def act (s : State V E) : Label V E → Option (State V E)
  | .spawn throws => if s.child.isFresh then some (s.spawn throws) else none
  | .returnSender =>
    if s.holder = .spawning ∧ s.child.isFresh = false ∧ (s.refused → s.child.isFinished) then
      some { s with holder := .sender }
    else none
  | .childCompletes completion throws =>
    if s.child.isRunning then some (s.childCompletes completion throws) else none
  | .advanceChild => s.advanceChild
  | .stopChild => if s.child.isRunning then some s.requestStop else none
  | .connect throws =>
    if s.holder = .sender ∧ s.destroy = .idle then
      if throws then some { s with destroy := .unconsumed } else some { s with holder := .op }
    else none
  | .start =>
    if s.holder = .op ∧ s.destroy = .idle then some { s with holder := .started, start := .entered }
    else none
  | .advanceStart throws => s.advanceStart throws
  | .stopConsumer => if s.stopPossible then some { s with tokenStop := true } else none
  | .runCallback =>
    if s.tokenStop ∧ s.callback = .registered then
      some { s with callback := .finished, stop := if s.owned then .running .requesting else .finished }
    else none
  | .advanceStop => s.advanceStop
  | .destroy =>
    if s.destroy = .idle then
      match s.holder with
      | .spawning => none
      | .sender | .op => some { s with destroy := .unconsumed }
      | .started =>
        if s.start.isFinished ∨ s.active = false then some { s with destroy := .exchanging } else none
    else none
  | .advanceDestroy => s.advanceDestroy

end State

def step (s : State V E) (l : Label V E) : Option (State V E) :=
  (s.act l).map s.settle

/-- Before `__spawn_future` starts the child. -/
def Initial (s : State V E) : Prop :=
  ∃ association stopPossible, s = { association := association, stopPossible := stopPossible }

end CCForge.SpawnFuture
