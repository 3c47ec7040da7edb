import CCForge.UringContext.Model
import Mathlib.Data.Finset.Card

/-!
# The invariant

An operation is queued, then submitted, then ready and then resumed. While it is submitted, its
target is with the kernel until its completion is drained, and so is its cancel from its
publication on. It becomes ready when neither is with the kernel any more.
-/

namespace CCForge.UringContext

/-! ## The life of an operation -/

/-- What has become of the cancel of a submitted operation. -/
inductive CancelState where
  | none
  | parked
  | published
  | drained
  deriving DecidableEq, Repr

/-- What has become of an operation. `target` tells that the completion of a submitted operation is
not drained. -/
inductive Life where
  | fresh
  | queued (requested : Bool)
  | submitted (target : Bool) (cancel : CancelState)
  | ready
  | resumed
  deriving DecidableEq, Repr

namespace Life

def registered : Life → Bool
  | queued _ => true
  | submitted _ _ => true
  | _ => false

/-- The entries and completions of the target. -/
def targets : Life → ℕ
  | submitted true _ => 1
  | _ => 0

/-- The entries and completions of the cancel. -/
def cancels : Life → ℕ
  | submitted _ .published => 1
  | _ => 0

def pendingCqes : Life → ℕ
  | fresh => 1
  | queued _ => 1
  | submitted target cancel => targets (submitted target cancel) + cancels (submitted target cancel)
  | ready => 0
  | resumed => 0

def submissionPending : Life → Bool
  | fresh => true
  | queued _ => true
  | _ => false

def cancelParked : Life → Bool
  | submitted _ .parked => true
  | _ => false

/-- Nobody asks a retired operation. -/
def cancelRequested : Life → Option Bool
  | fresh => some false
  | queued requested => some requested
  | submitted _ .none => some false
  | submitted _ _ => some true
  | _ => Option.none

def cancelPublished : Life → Option Bool
  | fresh => some false
  | queued _ => some false
  | submitted _ .none => some false
  | submitted _ .parked => some false
  | submitted _ _ => some true
  | _ => Option.none

def phase : Life → OperationPhase
  | fresh => .starting
  | queued _ => .suspended
  | submitted _ _ => .suspended
  | ready => .completed
  | resumed => .completed

def retirements : Life → ℕ
  | ready => 1
  | resumed => 1
  | _ => 0

def resumptions : Life → ℕ
  | resumed => 1
  | _ => 0

/-- A submitted operation has its target or its cancel with the kernel. -/
def Valid : Life → Prop
  | submitted target cancel => target = true ∨ cancel = .published
  | _ => True

end Life

/-- The stage of an awaitable goes with the life of its operation. -/
def Stage.Fits : Stage → Life → Prop
  | .suspended, life => life ≠ .fresh ∧ life ≠ .resumed
  | .resuming, life => life = .fresh ∨ life = .resumed
  | .finished, life => life = .fresh ∨ life = .resumed
  | _, life => life = .fresh

/-- The stop of a token reaches the operation through the callback. -/
structure TokenOk (o : Op) : Prop where
  stopPossible : o.tokenStopped = true → o.awaitable.stopPossible = true
  stopped : o.callback = .running ∨ o.callback = .spent → o.tokenStopped = true
  installing : o.stage = .installing → o.callback = .running ∨ o.callback = .spent
  installed : o.awaitable.stopPossible = true → o.stage = .submitting ∨ o.stage = .suspended →
    o.callback ≠ .absent
  requested : o.callback = .spent → o.registered = true → o.cancelRequested = true

/-- The fields of an operation are those of its life. -/
structure OpOk (o : Op) (life : Life) : Prop where
  valid : life.Valid
  registered : o.registered = life.registered
  pendingCqes : o.pendingCqes = life.pendingCqes
  submissionPending : o.submissionPending = life.submissionPending
  cancelParked : o.cancelParked = life.cancelParked
  cancelRequested : ∀ b, life.cancelRequested = some b → o.cancelRequested = b
  cancelPublished : ∀ b, life.cancelPublished = some b → o.cancelPublished = b
  phase : o.phase = life.phase
  retirements : o.retirements = life.retirements
  resumptions : o.resumptions = life.resumptions
  stage : o.stage.Fits life
  token : TokenOk o

structure Follows (s : State) (op : Address) (life : Life) : Prop where
  fields : OpOk (s.ops op) life
  operations : op ∈ s.operations ↔ life.registered = true
  submissions : op ∈ s.submissions ↔ ∃ requested, life = .queued requested
  ready : op ∈ s.ready ++ s.poller.batch ↔ life = .ready
  targets : s.kernel.outstanding (.target op) = life.targets
  cancels : s.kernel.outstanding (.cancel op) = life.cancels

/-! ## The context -/

/-- One NOP at most is with the kernel, as the flags tell. -/
structure WakeupOk (s : State) : Prop where
  outstanding : s.kernel.outstanding .wakeup =
    if s.wakeupPublished = true ∨ s.wakeupInFlight = true then 1 else 0
  needed : s.wakeupNeeded = true → s.wakeupPublished = false ∧ s.wakeupInFlight = false

/-- The counter counts the operations whose cancel is parked. -/
def ParkedOk (s : State) : Prop :=
  ∃ parked : Finset Address, (∀ op, op ∈ parked ↔ (s.ops op).cancelParked = true) ∧
    s.parkedCancels = parked.card

/-- The invariant. -/
structure Inv (s : State) : Prop where
  lives : ∀ op, ∃ life, Follows s op life
  operations : s.operations.Nodup
  submissions : s.submissions.Nodup
  ready : (s.ready ++ s.poller.batch).Nodup
  parked : ParkedOk s
  wakeup : WakeupOk s

end CCForge.UringContext
