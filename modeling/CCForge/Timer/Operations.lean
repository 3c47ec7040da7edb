import CCForge.Timer.Model
import CCForge.Lib.Threads

/-!
# Timer operations

An operation enqueues an item when it is started, and the worker, a failing `start`
and the destructor of the operation contend for its completion. The state is the
data of the context, the atomics of each operation and the call stacks of all
threads. A step is one locked section, one atomic exchange (with the unlocked code
before it), or the begin or the return of a receiver's completion. Receivers are the
users' code and may call everything here again.

An operation and its item have the same number, since `start` makes one item and an
operation is started once.
-/

namespace CCForge.Timer.Operations

abbrev OpId := ItemId
abbrev ThreadId := ℕ

inductive Signal where
  | value
  | stopped
  deriving DecidableEq, Repr

/-- Who delivers: the worker, or `start` itself with or without an item. -/
inductive Source where
  | worker
  | inline (hasItem : Bool)
  deriving DecidableEq, Repr

def Source.hasItem : Source → Bool
  | .worker => true
  | .inline hasItem => hasItem

/-- Where a call stands. -/
inductive Frame where
  /-- `start` before `enqueue`. -/
  | enqueue (item : Item)
  /-- `start` before the `complete_stopped` of its inline path. -/
  | inlineStopped (op : OpId) (hasItem : Bool)
  /-- The worker before `complete_value` or `complete_stopped`. -/
  | deliver (op : OpId) (completeStopped : Bool)
  /-- Inside the completion of the receiver. -/
  | completing (op : OpId) (source : Source)
  /-- Before `finish_delivery`. -/
  | publish (op : OpId) (source : Source)
  /-- The worker before the section that decrements. -/
  | account (op : OpId)
  /-- The destructor before `discard_item`. -/
  | discard (op : OpId)
  /-- The destructor in `wait_delivered`. -/
  | await (op : OpId)
  deriving DecidableEq, Repr

structure Op where
  /-- `item_` is not null. -/
  item : Bool := false
  /-- `start` has not yet handed the operation over to the queue or to a completion. -/
  inStart : Bool := false
  done : Bool := false
  completingThread : Option ThreadId := none
  /-- The flag `delivered` of the item. -/
  delivered : Bool := false
  deriving DecidableEq, Repr

structure State where
  shared : Shared := {}
  ops : OpId → Op := fun _ => {}
  stack : ThreadId → List Frame := fun _ => []
  exited : Bool := false
  clock : ℤ := 0
  started : List OpId := []
  accepted : List OpId := []
  discarded : List OpId := []
  /-- The items whose decrement after the delivery has run. -/
  finished : List OpId := []
  completed : List (OpId × Signal) := []
  /-- The operations whose destructor was called. -/
  destroying : List OpId := []
  /-- The operations whose destructor won the claim. -/
  abandoned : List OpId := []
  /-- The returns of destructors, and whether the call was made from inside the
  operation's own completion. -/
  destroyed : List (OpId × Bool) := []

/-- The thread that executes `run`. -/
def worker : ThreadId := 0

/-- Whether thread `t` executes the users' code. -/
def foreign (t : ThreadId) : List Frame → Bool
  | [] => t ≠ worker
  | .completing _ _ :: _ => true
  | _ => false

def Frame.completes (op : OpId) : Frame → Bool
  | .completing op' _ => op' = op
  | _ => false

/-- The call is made from inside the completion of `op`. -/
def inside (op : OpId) (frames : List Frame) : Bool := frames.any (Frame.completes op)

namespace State

@[simp] def setStack (s : State) (t : ThreadId) (frames : List Frame) : State :=
  { s with stack := Function.update s.stack t frames }

@[simp] def setOp (s : State) (op : OpId) (x : Op) : State :=
  { s with ops := Function.update s.ops op x }

/-- `complete_value` and `complete_stopped` of the operation's data, called from `rest`:
the completion of the receiver begins unless `done_` was claimed before. -/
def complete (s : State) (t : ThreadId) (op : OpId) (source : Source) (sig : Signal)
    (rest : List Frame) : State :=
  let x := { s.ops op with completingThread := some t, inStart := false }
  if x.done then (s.setOp op x).setStack t (.publish op source :: rest)
  else
    { (s.setOp op { x with done := true }).setStack t (.completing op source :: rest) with
      completed := s.completed ++ [(op, sig)] }

/-- A destructor returns to its caller, whose stack is `rest`. -/
def returnDestroyed (s : State) (t : ThreadId) (op : OpId) (rest : List Frame) : State :=
  { s.setStack t rest with destroyed := s.destroyed ++ [(op, inside op rest)] }

/-- The destructor up to its first section or wait. -/
def destroy (s : State) (t : ThreadId) (op : OpId) : State :=
  let s := { s with destroying := s.destroying ++ [op] }
  let rest := s.stack t
  if (s.ops op).item = false then s.returnDestroyed t op rest
  else if (s.ops op).done then
    if (s.ops op).completingThread = some t then s.returnDestroyed t op rest
    else s.setStack t (.await op :: rest)
  else
    { (s.setOp op { s.ops op with done := true }).setStack t (.discard op :: rest) with
      abandoned := s.abandoned ++ [op] }

/-- The next step of the context's own code on thread `t`. -/
def advance (s : State) (t : ThreadId) (throws : Bool) : Option State :=
  match s.stack t with
  | .enqueue item :: rest =>
    match s.shared.enqueue item throws with
    | (shared, true) =>
      some { (s.setOp item.id { s.ops item.id with inStart := false }).setStack t rest with
        shared := shared
        accepted := s.accepted ++ [item.id] }
    | (shared, false) =>
      some { s.setStack t (.inlineStopped item.id true :: rest) with shared := shared }
  | .inlineStopped op hasItem :: rest => some (s.complete t op (.inline hasItem) .stopped rest)
  | .deliver op completeStopped :: rest =>
    some (s.complete t op .worker (if completeStopped then .stopped else .value) rest)
  | .publish op source :: rest =>
    let s := if source.hasItem then s.setOp op { s.ops op with delivered := true } else s
    some (s.setStack t (if source = .worker then .account op :: rest else rest))
  | .account op :: rest =>
    some { s.setStack t rest with
      shared := s.shared.account
      finished := s.finished ++ [op] }
  | .discard op :: rest =>
    match s.shared.discardItem op with
    | (shared, true) =>
      some { s.returnDestroyed t op rest with
        shared := shared
        discarded := s.discarded ++ [op] }
    | (_, false) => some (s.setStack t (.await op :: rest))
  | .await op :: rest => if (s.ops op).delivered then some (s.returnDestroyed t op rest) else none
  | _ => none

/-- One iteration of the worker. -/
def iterate (s : State) (now : ℤ) : State :=
  match s.shared.pick now with
  | .exit => { s with clock := now, exited := true }
  | .wait => { s with clock := now }
  | .take item completeStopped items =>
    { s.setStack worker [.deliver item.id completeStopped] with
      clock := now
      shared := { s.shared with items := items } }

end State

/-- How far `start` comes without the lock. -/
inductive Start where
  /-- `make_item` throws. -/
  | noItem
  /-- Something throws later, or a stop was already requested. -/
  | failed
  | ready
  deriving DecidableEq, Repr

def State.start (s : State) (t : ThreadId) (item : Item) (outcome : Start) : State :=
  let op := item.id
  let s := { s with started := s.started ++ [op] }
  let rest := s.stack t
  match outcome with
  | .noItem =>
    (s.setOp op { s.ops op with inStart := true }).setStack t (.inlineStopped op false :: rest)
  | .failed =>
    (s.setOp op { s.ops op with inStart := true, item := true }).setStack t
      (.inlineStopped op true :: rest)
  | .ready =>
    (s.setOp op { s.ops op with inStart := true, item := true }).setStack t (.enqueue item :: rest)

/-- The steps of a timer context, its worker and its users. -/
inductive Label where
  | start (t : ThreadId) (item : Item) (outcome : Start)
  | requestItemStop (op : OpId)
  | shutdown
  | destroy (t : ThreadId) (op : OpId)
  | iterate (now : ℤ)
  | advance (t : ThreadId) (throws : Bool)
  | ret (t : ThreadId)
  | wait (t : ThreadId)
  deriving DecidableEq, Repr

/-- An operation is started once and destroyed once; it is not destroyed while its `start`
still needs it and not started after that. -/
def step (s : State) : Label → Option State
  | .start t item outcome =>
    if foreign t (s.stack t) ∧ item.id ∉ s.started ∧ item.id ∉ s.destroying then
      some (s.start t item outcome)
    else none
  | .requestItemStop op => some { s with shared := s.shared.requestItemStop op }
  | .shutdown => some { s with shared := s.shared.shutdown }
  | .destroy t op =>
    if foreign t (s.stack t) ∧ op ∉ s.destroying ∧ (s.ops op).inStart = false then
      some (s.destroy t op)
    else none
  | .iterate now =>
    if s.stack worker = [] ∧ s.exited = false ∧ s.clock ≤ now then some (s.iterate now) else none
  | .advance t throws => s.advance t throws
  | .ret t =>
    match s.stack t with
    | .completing op source :: rest => some (s.setStack t (.publish op source :: rest))
    | _ => none
  | .wait t =>
    if foreign t (s.stack t) ∧ (t = worker ∨ s.shared.Idle) then some s else none

/-- A context right after its construction, whatever the clock shows. -/
def Initial (s : State) : Prop := ∃ now, s = { clock := now }

end CCForge.Timer.Operations
