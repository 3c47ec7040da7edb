import CCForge.Iocp.Model

/-!
# The invariant

An operation has one of six lives. It is undecided until its start has gone through the section of
the context. From there the start completes it, or a packet is due for it. A packet is due until the
worker takes the record out, and then the worker completes the operation.
-/

namespace CCForge.Iocp

/-! ## The life of an operation -/

/-- What has become of an operation. `claimed` tells that a party has set `done`. -/
inductive Life where
  | undecided
  | refused (claimed : Bool)
  | accepted
  | drained (claimed : Bool)
  | completed (party : Party)
  deriving DecidableEq, Repr

namespace Life

/-- The packets that were ever due. -/
def packets : Life → ℕ
  | undecided => 0
  | refused _ => 0
  | accepted => 1
  | drained _ => 1
  | completed .start => 0
  | completed .worker => 1

def done : Life → Bool
  | undecided => false
  | refused claimed => claimed
  | accepted => false
  | drained claimed => claimed
  | completed _ => true

/-- Who has completed the receiver. -/
def completers : Life → List Party
  | completed party => [party]
  | _ => []

/-- Whether the worker completes the operation, and has claimed it. -/
def served : Life → Option Bool
  | drained claimed => some claimed
  | _ => none

end Life

/-- Whether a party in this stage has claimed the operation. -/
def CompleteStage.claimed : CompleteStage → Bool
  | .claim => false
  | .teardown => true
  | .receiver => true

/-- The stage of the start goes with the life. -/
def Stage.Fits : Stage → Life → Prop
  | .idle, life => life = .undecided
  | .check, life => life = .undecided
  | .install, life => life = .undecided
  | .installing, life => life = .undecided
  | .locked, life => life = .undecided
  | .accepted, life => life.packets = 1
  | .cancelling, life => life.packets = 1
  | .waking, life => life.packets = 1
  | .completing _ stage, life => life = .refused stage.claimed
  | .returned, life => life.packets = 1 ∨ life = .completed .start

/-- Before the start there is no callback, and while the start waits for the callback, this was
executed or is in execution. -/
def Stage.Admits : Stage → Callback → Prop
  | .idle, callback => callback = .absent
  | .installing, callback => callback.runs = true ∨ callback = .spent
  | _, _ => True

/-- Whether the worker has a packet of the operation in its hands. -/
def WorkerStage.drains : WorkerStage → OpId → Bool
  | .draining op _ _ _, target => op = target
  | _, _ => false

/-- Whether the worker completes the operation, and has claimed it. -/
def WorkerStage.serves : WorkerStage → OpId → Option Bool
  | .completing op _ stage, target => if op = target then some stage.claimed else none
  | _, _ => none

/-- The fields of an operation are those of its life. -/
structure Follows (s : State) (op : OpId) (life : Life) : Prop where
  pending : op ∈ s.pendingRecords ↔ life = .accepted
  packets : s.kernel.packets op = life.packets
  done : (s.ops op).done = life.done
  completers : (s.ops op).completions.map Prod.fst = life.completers
  served : s.worker.serves op = life.served
  stage : (s.ops op).stage.Fits life

/-! ## The books of the context -/

namespace State

/-- The packets of an operation that are still to be posted or to be drained. -/
def due (s : State) (op : OpId) : ℕ := s.kernel.outstanding op + if s.worker.drains op then 1 else 0

/-- The pending records of a handle. -/
def recordsOf (s : State) (handle : Handle) : Finset OpId :=
  s.pendingRecords.filter fun op => s.handleOf op = handle

end State

/-- The counters agree with the pending records, and these with the packets. -/
structure Counts (s : State) : Prop where
  pending : s.pending = s.pendingRecords.card
  active : ∀ handle, s.active handle = (s.recordsOf handle).card
  /-- A record is pending on an object that is associated with the port. -/
  associated : ∀ op ∈ s.pendingRecords, s.kernel.isAssociated (s.handleOf op) = true
  /-- Each pending record has one packet to come, and no other operation has one. -/
  due : ∀ op, s.due op = if op ∈ s.pendingRecords then 1 else 0
  matched : s.mismatch = false

/-- The mode that an entry keeps is the mode of the object that the handle names. -/
structure ModeAt (s : State) (handle : Handle) : Prop where
  mode : ∀ association, s.associatedHandles handle = some association →
    s.kernel.isAssociated handle = true → association.skipsCompletionOnSuccess = s.kernel.skips handle
  fresh : s.kernel.isAssociated handle = false → s.kernel.skips handle = false

/-- The invariant. -/
structure Inv (s : State) : Prop where
  counts : Counts s
  modes : ∀ handle, ModeAt s handle
  lives : ∀ op, ∃ life, Follows s op life
  /-- The worker leaves a context without pending records that takes no new ones. -/
  leaves : s.worker = .leaving ∨ s.worker = .exited → (s.closed ∨ s.stopped) ∧ s.pending = 0
  callbacks : ∀ op, (s.ops op).stage.Admits (s.ops op).callback
  started : ∀ op, op ∈ s.started ↔ (s.ops op).stage ≠ .idle

end CCForge.Iocp
