import CCForge.Lib.Run
import CCForge.Lib.Threads

/-!
# The strand

A strand serialises the records enqueued on it over an underlying scheduler. The
state is the data behind the strand's mutex, the call stacks of all threads inside
the strand's code, and the number of runners the scheduler still has to complete.
A step is one locked section (with the unlocked code of its call before it), one
turn of a loop, or the begin or the return of code that is not the strand's: the
completion of a record and the start of a runner.

The fields after `outstanding` record the history of a run; the only one that a
step reads is `enqueued`, so that no record is started twice.
-/

namespace CCForge.Strand

abbrev RecordId := ℕ
abbrev ThreadId := ℕ

inductive Signal where
  | value
  | stopped
  deriving DecidableEq, Repr

/-- Where a call into the strand stands. -/
inductive Frame where
  /-- `launch` is set, `launch_runner` is about to be called. -/
  | launch
  /-- The loop of `launch_runner` with the `relaunch` field of its guard. -/
  | launching (relaunch : Bool)
  /-- `launch_runner_once` up to the start of the runner. -/
  | launchOnce
  /-- `runner->start()`. -/
  | starting
  /-- `run_one` with a record in hand. -/
  | turn (r : RecordId)
  | completing (r : RecordId)
  /-- `run_one` before its second locked section. -/
  | turnEnd
  /-- The inner loop of `complete_stopped_batch`. -/
  | batch (deferredStopped : List RecordId)
  | completingStopped (r : RecordId) (deferredStopped : List RecordId)
  deriving DecidableEq, Repr

/-- The data behind the strand's mutex. -/
structure Shared where
  queue : List RecordId := []
  deferredStopped : List RecordId := []
  running : Bool := false
  active : Bool := false
  closed : Bool := false
  deriving DecidableEq, Repr

namespace Shared

def deferQueueLocked (s : Shared) : Shared :=
  { s with queue := [], deferredStopped := s.deferredStopped ++ s.queue }

def appendDeferredStoppedLocked (s : Shared) (r : RecordId) : Shared :=
  { s with deferredStopped := s.deferredStopped ++ [r] }

def takeDeferredStoppedLocked (s : Shared) : List RecordId × Shared :=
  (s.deferredStopped, { s with deferredStopped := [] })

/-- The part of `enqueue` that both a closed strand and a failed node run. -/
def enqueueDeferred (s : Shared) (r : RecordId) : Shared × List Frame :=
  let s := s.deferQueueLocked.appendDeferredStoppedLocked r
  if s.active then (s, [])
  else
    let (deferredStopped, s) := { s with active := true, running := true }.takeDeferredStoppedLocked
    (s, [.batch deferredStopped])

/-- Each locked section returns what its call goes on with after the unlock. -/
def enqueue (s : Shared) (r : RecordId) (allocated : Bool) : Shared × List Frame :=
  if s.closed then s.enqueueDeferred r
  else if allocated then
    let s := { s with queue := s.queue ++ [r] }
    if s.running then (s, []) else ({ s with running := true }, [.launch])
  else { s with closed := true }.enqueueDeferred r

def shutdown (s : Shared) : Shared × List Frame :=
  let s := { s with closed := true }
  if s.active then (s, [])
  else if s.queue = [] ∧ s.deferredStopped = [] then ({ s with running := false }, [])
  else
    let (deferredStopped, s) := s.deferQueueLocked.takeDeferredStoppedLocked
    ({ s with active := true, running := true }, [.batch deferredStopped])

/-- The first locked section of `run_one`. -/
def runOne (s : Shared) : Shared × List Frame :=
  if s.active then (s, [])
  else match s.queue with
    | [] =>
      if s.closed ∧ s.deferredStopped ≠ [] then
        let (deferredStopped, s) :=
          { s with active := true, running := true }.takeDeferredStoppedLocked
        (s, [.batch deferredStopped])
      else ({ s with running := false }, [])
    | r :: rest =>
      let s := { s with active := true }
      if s.closed then
        let (deferredStopped, s) := s.deferQueueLocked.takeDeferredStoppedLocked
        (s, [.batch deferredStopped])
      else ({ s with queue := rest }, [.turn r])

/-- The second locked section of `run_one`. -/
def endTurn (s : Shared) : Shared × List Frame :=
  if s.closed ∧ (s.queue ≠ [] ∨ s.deferredStopped ≠ []) then
    let (deferredStopped, s) := s.deferQueueLocked.takeDeferredStoppedLocked
    (s, [.batch deferredStopped])
  else
    let s := { s with active := false }
    if s.queue = [] then ({ s with running := false }, []) else (s, [.launch])

/-- The locked section of `complete_stopped_batch`. -/
def nextBatch (s : Shared) : Shared × List Frame :=
  let (deferredStopped, s) := s.deferQueueLocked.takeDeferredStoppedLocked
  if deferredStopped = [] then ({ s with active := false, running := false }, [])
  else (s, [.batch deferredStopped])

/-- The predicate that `wait` blocks on. -/
def Quiet (s : Shared) : Prop := s.queue = [] ∧ s.running = false

instance (s : Shared) : Decidable s.Quiet := inferInstanceAs (Decidable (_ ∧ _))

end Shared

structure State where
  shared : Shared := {}
  stopOnly : RecordId → Bool := fun _ => false
  done : RecordId → Bool := fun _ => false
  stack : ThreadId → List Frame := fun _ => []
  /-- Runners started on the scheduler and not completed by it. -/
  outstanding : ℕ := 0
  /-- The records in the order in which their `enqueue` took the lock. -/
  enqueued : List RecordId := []
  /-- The records that `run_one` took from the queue, with `closed_` at that moment. -/
  taken : List (RecordId × Bool) := []
  begun : List (RecordId × Signal) := []
  returned : List RecordId := []

/-- Whether the innermost frame runs code that is not the strand's, which may call
into the strand again. -/
def foreign : List Frame → Bool
  | [] => true
  | .launchOnce :: _ => true
  | .starting :: _ => true
  | .completing _ :: _ => true
  | .completingStopped _ _ :: _ => true
  | _ => false

/-- A `__current_state_guard` of this strand is on the stack. -/
def inTurn (frames : List Frame) : Bool :=
  frames.any fun
    | .completing _ => true
    | .batch _ => true
    | .completingStopped _ _ => true
    | _ => false

/-- Sets `relaunch` in the launch guard of this strand, if the stack has one. -/
def requestRelaunch : List Frame → Option (List Frame)
  | [] => none
  | .launching _ :: rest => some (.launching true :: rest)
  | f :: rest => (requestRelaunch rest).map (f :: ·)

def launchRunner (rest : List Frame) : List Frame :=
  (requestRelaunch rest).getD (.launchOnce :: .launching false :: rest)

/-- The record that a section took for a turn. -/
def takenBy (closed : Bool) (frames : List Frame) : List (RecordId × Bool) :=
  frames.filterMap fun
    | .turn r => some (r, closed)
    | _ => none

namespace State

@[simp] def setStack (s : State) (t : ThreadId) (frames : List Frame) : State :=
  { s with stack := Function.update s.stack t frames }

/-- Leaves a locked section of thread `t`, whose call was made from `rest`. -/
@[simp] def unlock (s : State) (t : ThreadId) (rest : List Frame) (p : Shared × List Frame) :
    State :=
  { s.setStack t (p.2 ++ rest) with
    shared := p.1
    taken := s.taken ++ takenBy s.shared.closed p.2 }

/-- `complete_value` and `complete_stopped` of a record. -/
def complete (s : State) (r : RecordId) (sig : Signal) : State :=
  if s.done r then s
  else { s with done := Function.update s.done r true, begun := s.begun ++ [(r, sig)] }

/-- The next step of the strand's own code on thread `t`. -/
def advance (s : State) (t : ThreadId) (allocated : Bool) : Option State :=
  match s.stack t with
  | .launch :: rest => some (s.setStack t (launchRunner rest))
  | .launching relaunch :: rest =>
    some (s.setStack t (if relaunch then .launchOnce :: .launching false :: rest else rest))
  | .launchOnce :: rest =>
    if allocated then some { s.setStack t (.starting :: rest) with outstanding := s.outstanding + 1 }
    else some (s.unlock t rest s.shared.shutdown)
  | .turn r :: rest =>
    some ((s.complete r (if s.stopOnly r then .stopped else .value)).setStack t
      (.completing r :: rest))
  | .turnEnd :: rest => some (s.unlock t rest s.shared.endTurn)
  | .batch (r :: deferredStopped) :: rest =>
    some ((s.complete r .stopped).setStack t (.completingStopped r deferredStopped :: rest))
  | .batch [] :: rest => some (s.unlock t rest s.shared.nextBatch)
  | _ => none

/-- Code that is not the strand's returns to it on thread `t`. -/
def ret (s : State) (t : ThreadId) : Option State :=
  match s.stack t with
  | .starting :: rest => some (s.setStack t rest)
  | .completing r :: rest =>
    some { s.setStack t (.turnEnd :: rest) with returned := s.returned ++ [r] }
  | .completingStopped r deferredStopped :: rest =>
    some { s.setStack t (.batch deferredStopped :: rest) with returned := s.returned ++ [r] }
  | _ => none

end State

/-- The steps of a strand and its environment. A runner completes with a value
(`runOne`) or with stopped or an error (`stopAll`), on any thread. -/
inductive Label where
  | enqueue (t : ThreadId) (r : RecordId) (stopOnly allocated : Bool)
  | shutdown (t : ThreadId)
  | runOne (t : ThreadId)
  | stopAll (t : ThreadId)
  | advance (t : ThreadId) (allocated : Bool)
  | ret (t : ThreadId)
  | wait (t : ThreadId)
  deriving DecidableEq, Repr

def step (s : State) : Label → Option State
  | .enqueue t r stopOnly allocated =>
    if foreign (s.stack t) ∧ r ∉ s.enqueued then
      some ({ s with
        stopOnly := Function.update s.stopOnly r stopOnly
        enqueued := s.enqueued ++ [r] }.unlock t (s.stack t) (s.shared.enqueue r allocated))
    else none
  | .shutdown t =>
    if foreign (s.stack t) then some (s.unlock t (s.stack t) s.shared.shutdown) else none
  | .runOne t =>
    if foreign (s.stack t) ∧ 0 < s.outstanding then
      some ({ s with outstanding := s.outstanding - 1 }.unlock t (s.stack t) s.shared.runOne)
    else none
  | .stopAll t =>
    if foreign (s.stack t) ∧ 0 < s.outstanding then
      some ({ s with outstanding := s.outstanding - 1 }.unlock t (s.stack t) s.shared.shutdown)
    else none
  | .advance t allocated => s.advance t allocated
  | .ret t => s.ret t
  | .wait t =>
    if foreign (s.stack t) ∧ (inTurn (s.stack t) ∨ s.shared.Quiet) then some s else none

end CCForge.Strand
