import CCForge.Lib.Run
import Mathlib.Data.Fintype.Basic
import Mathlib.Data.List.OfFn

/-!
# when_all

A `when_all` operation starts its children one after the other. A child completes
once, from inside of its start or later and from any thread, and its completion goes
through the disposition flag, the result behind the mutex and the number of pending
children, one step each. The child that brings the number to zero delivers.

A step is one atomic operation or one locked section, with the unlocked code before
it. The outer stop token follows the rules of stop callbacks: a callback runs inside
of its registration if a stop was requested before, and at some time after a later
request, unless it is deregistered first.
-/

namespace CCForge.WhenAll

/-- What the completion signatures of a child allow it to send. -/
structure Signatures where
  value : Bool
  stopped : Bool
  deriving DecidableEq, Repr

inductive Signal (V E : Type) where
  | value (values : List V)
  | error (error : E)
  | stopped
  deriving DecidableEq, Repr

inductive Disposition where
  | started
  | error
  | stopped
  deriving DecidableEq, Repr

/-- The result variant. It is valueless after a store that threw. -/
inductive Result (E : Type) where
  | monostate
  | error (error : E)
  | stopped
  | valueless
  deriving DecidableEq, Repr

/-- Where a child stands. -/
inductive Stage (V E : Type) where
  | idle
  | running
  /-- In `set_value` before the values are stored. -/
  | value (values : List V)
  /-- In `child_fail` before the exchange. -/
  | fail (error : E)
  /-- It won the exchange and is before `request_stop`. -/
  | failStop (error : E)
  | failStore (error : E)
  /-- The store threw. -/
  | failRestore (error : E)
  /-- In `child_stop` before the exchange. -/
  | stop
  /-- It won the exchange and is before the locked section. -/
  | stopStore
  | stopRequest
  /-- In `child_done` before the decrement. -/
  | finishing
  /-- In `deliver` before the stop callback is destroyed. -/
  | delivering
  /-- Before the completion of the outer receiver. -/
  | sending
  | done
  deriving DecidableEq, Repr

/-- How the completion of a child counts. -/
inductive Outcome (V E : Type) where
  | value (values : List V)
  | error (error : E)
  | stopped
  deriving DecidableEq, Repr

/-- What `deliver` ends with. -/
inductive Delivery (V E : Type) where
  | value (values : List V)
  | error (error : E)
  | stopped
  | terminate
  deriving DecidableEq, Repr

/-- How the registration of the outer stop callback goes. -/
inductive Install where
  | notPossible
  | throws
  | installed
  deriving DecidableEq, Repr

structure State (n : ℕ) (V E : Type) where
  signatures : Fin n → Signatures
  stage : Fin n → Stage V E := fun _ => .idle
  /-- The value storage of each child. -/
  stored : Fin n → Option (List V) := fun _ => none
  pending : ℕ := n
  disp : Disposition := .started
  result : Result E := .monostate
  /-- The children's stop source. -/
  stopRequested : Bool := false
  registered : Bool := false
  /-- How many children have been started. -/
  started : ℕ := 0
  outerStopRequested : Bool := false
  /-- The outer stop callback is registered. -/
  callback : Bool := false
  /-- The outer stop callback ran. -/
  callbackInvoked : Bool := false
  installFailed : Bool := false
  outcome : Fin n → Option (Outcome V E) := fun _ => none
  /-- The exchanges of failing children, in their order. -/
  failures : List (Fin n × E) := []
  /-- The exchanges of stopped children. -/
  stops : List (Fin n) := []
  /-- What the store of the error threw. -/
  storeThrew : Option E := none
  delivered : List (Delivery V E) := []

namespace State

variable {n : ℕ} {V E : Type}

@[simp] def setStage (s : State n V E) (i : Fin n) (x : Stage V E) : State n V E :=
  { s with stage := Function.update s.stage i x }

@[simp] def setOutcome (s : State n V E) (i : Fin n) (x : Outcome V E) : State n V E :=
  { s with outcome := Function.update s.outcome i (some x) }

/-- `register_outer_stop_callback`. -/
def register (s : State n V E) : Install → State n V E
  | .notPossible => { s with registered := true }
  | .throws => { s with registered := true, installFailed := true, stopRequested := true }
  | .installed =>
    if s.outerStopRequested then
      { s with registered := true, callbackInvoked := true, stopRequested := true }
    else { s with registered := true, callback := true }

/-- The values of all children in the order of the senders, if all are stored. -/
def flattened (s : State n V E) : Option (List V) :=
  ((List.ofFn s.stored).mapM id).map List.flatten

def canValueComplete (s : State n V E) : Prop := ∀ i, (s.signatures i).value = true

instance (s : State n V E) : Decidable s.canValueComplete :=
  inferInstanceAs (Decidable (∀ i, (s.signatures i).value = true))

def sendsStopped (s : State n V E) : Prop := ∃ i, (s.signatures i).stopped = true

instance (s : State n V E) : Decidable s.sendsStopped :=
  inferInstanceAs (Decidable (∃ i, (s.signatures i).stopped = true))

/-- `deliver` after the destruction of the stop callback. -/
def delivery (s : State n V E) : Delivery V E :=
  match s.result with
  | .error error => .error error
  | .stopped => if s.sendsStopped then .stopped else .terminate
  | .monostate | .valueless =>
    if s.canValueComplete then
      match s.flattened with
      | some values => .value values
      | none => .terminate
    else if s.sendsStopped then .stopped
    else .terminate

/-- The next step of child `i`. `throws` is what the store of this step throws. -/
def advance (s : State n V E) (i : Fin n) (throws : Option E) : Option (State n V E) :=
  match s.stage i with
  | .idle | .running | .done => none
  | .value values =>
    match throws with
    | some error => some ((s.setStage i (.fail error)).setOutcome i (.error error))
    | none =>
      some { (s.setStage i .finishing).setOutcome i (.value values) with
        stored := Function.update s.stored i (some values) }
  | .fail error =>
    some { s.setStage i (if s.disp = .error then .finishing else .failStop error) with
      disp := .error
      failures := s.failures ++ [(i, error)] }
  | .failStop error => some { s.setStage i (.failStore error) with stopRequested := true }
  | .failStore error =>
    match throws with
    | some error' =>
      some { s.setStage i (.failRestore error') with
        result := .valueless
        storeThrew := some error' }
    | none => some { s.setStage i .finishing with result := .error error }
  | .failRestore error => some { s.setStage i .finishing with result := .error error }
  | .stop =>
    if s.disp = .started then
      some { s.setStage i .stopStore with disp := .stopped, stops := s.stops ++ [i] }
    else some { s.setStage i .stopRequest with stops := s.stops ++ [i] }
  | .stopStore =>
    some { s.setStage i .stopRequest with
      result := match s.result with
        | .monostate => .stopped
        | result => result }
  | .stopRequest => some { s.setStage i .finishing with stopRequested := true }
  | .finishing =>
    some { s.setStage i (if s.pending = 1 then .delivering else .done) with
      pending := s.pending - 1 }
  | .delivering => some { s.setStage i .sending with callback := false }
  | .sending => some { s.setStage i .done with delivered := s.delivered ++ [s.delivery] }

end State

inductive Label (n : ℕ) (V E : Type) where
  | requestOuterStop
  | invokeCallback
  | register (install : Install)
  | startChild (i : Fin n)
  | complete (i : Fin n) (signal : Signal V E)
  | advance (i : Fin n) (throws : Option E)
  deriving DecidableEq, Repr

variable {n : ℕ} {V E : Type}

/-- A child completes once, with a signal that its signatures allow. -/
def step (s : State n V E) : Label n V E → Option (State n V E)
  | .requestOuterStop => some { s with outerStopRequested := true }
  | .invokeCallback =>
    if s.callback ∧ s.outerStopRequested ∧ ¬s.callbackInvoked then
      some { s with callbackInvoked := true, stopRequested := true }
    else none
  | .register install => if s.registered then none else some (s.register install)
  | .startChild i =>
    if s.registered ∧ s.started = i then
      some { s.setStage i .running with started := s.started + 1 }
    else none
  | .complete i signal =>
    match s.stage i, signal with
    | .running, .value values =>
      if (s.signatures i).value then some (s.setStage i (.value values)) else none
    | .running, .error error =>
      some ((s.setStage i (.fail error)).setOutcome i (.error error))
    | .running, .stopped =>
      if (s.signatures i).stopped then some ((s.setStage i .stop).setOutcome i .stopped) else none
    | _, _ => none
  | .advance i throws => s.advance i throws

/-- A connected operation. There is at least one child. -/
def Initial (s : State n V E) : Prop := 0 < n ∧ ∃ signatures, s = { signatures := signatures }

end CCForge.WhenAll
