import CCForge.Lib.Run
import CCForge.Lib.Census

/-!
# The static thread pool

The state is the data behind the pool's mutex and where each worker stands in its
loop. A step is one locked section (with the unlocked code of its call before it),
the begin or the end of a task, or the completion of a receiver by `start`. The
code of a task is not the pool's: while it runs it may submit, shut down and start
operations like any other thread, and these steps are enabled in every state.

The fields after `stopping` record the history of a run. Steps read them only so
that no task is submitted and no operation is started twice.
-/

namespace CCForge.ThreadPool

abbrev OpId := ℕ

/-- A callable handed to `__submit`: the one of a schedule operation or any other. -/
inductive Task where
  | plain (id : ℕ)
  | schedule (op : OpId)
  deriving DecidableEq, Repr

def Task.op? : Task → Option OpId
  | .plain _ => none
  | .schedule op => some op

inductive Signal where
  | value
  | stopped
  deriving DecidableEq, Repr

structure Options where
  threadCount : ℕ
  queueCapacity : Option ℕ := none

/-- The number of threads that the constructor launches. -/
def Options.workers (o : Options) : ℕ := if o.threadCount = 0 then 1 else o.threadCount

/-- What a call of `__submit` ends with. -/
inductive Outcome where
  | accepted
  | refused
  | threw
  deriving DecidableEq, Repr

/-- The data behind the pool's mutex. -/
structure Shared where
  queue : List Task := []
  queueCapacity : Option ℕ := none
  stop : Bool := false
  active : ℕ := 0
  deriving DecidableEq, Repr

namespace Shared

def shutdown (s : Shared) : Shared := { s with stop := true }

/-- `throws` says that making the task or the place in the queue for it throws. -/
def submit (s : Shared) (task : Task) (throws : Bool) : Shared × Outcome :=
  if s.stop then (s, .refused)
  else if s.queueCapacity.any fun c => s.queue.length ≥ c then (s, .refused)
  else if throws then (s, .threw)
  else ({ s with queue := s.queue ++ [task], active := s.active + 1 }, .accepted)

/-- The first locked section of `__run`. The worker blocks in it (`none`), leaves its
loop (`some (none, _)`) or takes a task. -/
def pop (s : Shared) : Option (Option Task × Shared) :=
  match s.queue with
  | [] => if s.stop then some (none, s) else none
  | task :: rest => some (some task, { s with queue := rest })

/-- The second locked section of `__run`. -/
def account (s : Shared) : Shared := { s with active := s.active - 1 }

/-- The predicate that `__wait_idle` blocks on. -/
def Idle (s : Shared) : Prop := s.queue = [] ∧ s.active = 0

instance (s : Shared) : Decidable s.Idle := inferInstanceAs (Decidable (_ ∧ _))

end Shared

/-- Where a worker stands in `__run`. -/
inductive Worker where
  /-- Before the section that pops. -/
  | waiting
  /-- With a popped task, before `task()`. -/
  | holding (task : Task)
  | running (task : Task)
  /-- After `task()`, before the section that decrements. -/
  | accounting (task : Task)
  | exited
  deriving DecidableEq, Repr

structure State (n : ℕ) where
  shared : Shared
  worker : Fin n → Worker := fun _ => .waiting
  /-- Operations whose `start` was refused and has still to call `set_stopped`. -/
  stopping : List OpId := []
  started : List OpId := []
  /-- The tasks for which `__submit` returned true, in the order of its locked sections. -/
  accepted : List Task := []
  /-- The tasks for which `__submit` returned false or threw. -/
  rejected : List Task := []
  popped : List Task := []
  /-- The tasks whose `task()` has begun. -/
  executed : List Task := []
  /-- The tasks whose `task()` has returned or thrown. -/
  returned : List Task := []
  /-- The tasks whose turn in `__run` is over. -/
  finished : List Task := []
  /-- The completions of receivers of schedule operations. -/
  completed : List (OpId × Signal) := []

def initial (o : Options) : State o.workers :=
  { shared := { queueCapacity := o.queueCapacity } }

namespace State

variable {n : ℕ}

@[simp] def setWorker (s : State n) (w : Fin n) (x : Worker) : State n :=
  { s with worker := Function.update s.worker w x }

/-- A call of `__submit`, with what came of it. -/
def submit (s : State n) (task : Task) (throws : Bool) : State n × Outcome :=
  match s.shared.submit task throws with
  | (shared, .accepted) =>
    ({ s with shared := shared, accepted := s.accepted ++ [task] }, .accepted)
  | (shared, outcome) => ({ s with shared := shared, rejected := s.rejected ++ [task] }, outcome)

/-- `__op::start` up to the call of `set_stopped`, which it makes without the lock. -/
def start (s : State n) (op : OpId) (stopRequested throws : Bool) : State n :=
  let s := { s with started := s.started ++ [op] }
  if stopRequested then { s with stopping := s.stopping ++ [op] }
  else match s.submit (.schedule op) throws with
    | (s, .accepted) => s
    | (s, _) => { s with stopping := s.stopping ++ [op] }

/-- The locked section in which worker `w` pops. -/
def pop (s : State n) (w : Fin n) : Option (State n) :=
  match s.shared.pop with
  | none => none
  | some (none, shared) => some ({ s with shared := shared }.setWorker w .exited)
  | some (some task, shared) =>
    some ({ s with shared := shared, popped := s.popped ++ [task] }.setWorker w (.holding task))

/-- `task()`; the one of a schedule operation completes its receiver. -/
def execute (s : State n) (task : Task) : State n :=
  { s with
    executed := s.executed ++ [task]
    completed := s.completed ++ (task.op?.map fun op => (op, Signal.value)).toList }

/-- The next step of worker `w`. -/
def advance (s : State n) (w : Fin n) : Option (State n) :=
  match s.worker w with
  | .waiting => s.pop w
  | .holding task => some ((s.execute task).setWorker w (.running task))
  | .running task =>
    some ({ s with returned := s.returned ++ [task] }.setWorker w (.accounting task))
  | .accounting task =>
    some ({ s with
      shared := s.shared.account
      finished := s.finished ++ [task] }.setWorker w .waiting)
  | .exited => none

end State

/-- The steps of a pool and of the threads that use it. A task that throws ends its
`running` like one that returns, as `__run` catches everything. -/
inductive Label (n : ℕ) where
  | submit (id : ℕ) (throws : Bool)
  | start (op : OpId) (stopRequested throws : Bool)
  | setStopped (op : OpId)
  | shutdown
  | waitIdle
  | advance (w : Fin n)
  deriving DecidableEq, Repr

/-- The steps that are due on some thread once what led to them has happened. -/
def Label.due {n : ℕ} : Label n → Bool
  | .advance _ => true
  | .setStopped _ => true
  | _ => false

variable {n : ℕ}

def step (s : State n) : Label n → Option (State n)
  | .submit id throws =>
    if Task.plain id ∉ s.accepted ++ s.rejected then some (s.submit (.plain id) throws).1 else none
  | .start op stopRequested throws =>
    if op ∉ s.started then some (s.start op stopRequested throws) else none
  | .setStopped op =>
    if op ∈ s.stopping then
      some { s with
        stopping := s.stopping.erase op
        completed := s.completed ++ [(op, .stopped)] }
    else none
  | .shutdown => some { s with shared := s.shared.shutdown }
  | .waitIdle => if s.shared.Idle then some s else none
  | .advance w => s.advance w

end CCForge.ThreadPool
