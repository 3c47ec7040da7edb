import Mathlib.Data.List.Basic
import Mathlib.Logic.Function.Basic

/-!
# Chains of suspended coroutine frames

A frame that awaits a task holds the awaitable, the awaitable owns the frame of the task, and the
promise of the awaiting frame has a link down to it. `destroy_frame_chain` takes such a chain down.

Each access to a frame that was destroyed has no value. A loop has as many rounds as its first
argument allows.
-/

namespace CCForge.FrameChain

/-- A frame, the link in its promise, or the task in its awaitable: all have one address here. -/
abbrev FrameId := ℕ

structure FrameChainLink where
  childFrame : Option FrameId := none
  childLink : Option FrameId := none
  ownedTask : Option FrameId := none
  /-- `release_owned` is set. -/
  releaseOwned : Bool := false
  deriving DecidableEq, Repr

/-- A `task_awaitable`, with the frame that its task owns. -/
structure TaskAwaitable where
  task : Option FrameId
  parent : Option FrameId
  registered : Bool := false
  deriving DecidableEq, Repr

structure Frame where
  link : FrameChainLink := {}
  awaitable : Option TaskAwaitable := none
  alive : Bool := true
  deriving DecidableEq, Repr

inductive Event where
  | released (task : FrameId)
  | destroyed (frame : FrameId)
  /-- The destructor of a task that still owns a frame. -/
  | abandoned (frame : FrameId)
  deriving DecidableEq, Repr

structure State where
  frames : FrameId → Frame
  log : List Event := []

namespace State

def set (s : State) (f : FrameId) (frame : Frame) : State :=
  { s with frames := Function.update s.frames f frame }

def record (s : State) (event : Event) : State := { s with log := s.log ++ [event] }

/-- The fields of a link. -/
def link? (s : State) (l : FrameId) : Option FrameChainLink :=
  if (s.frames l).alive then some (s.frames l).link else none

def setLink (s : State) (l : FrameId) (link : FrameChainLink) : Option State :=
  if (s.frames l).alive then some (s.set l { s.frames l with link }) else none

/-- `reset_child`. -/
def resetChild (s : State) (l : FrameId) : Option State := s.setLink l {}

/-- `__abandon`. -/
def abandon (s : State) (task : FrameId) : Option State :=
  if (s.frames task).alive then
    (s.frames task).awaitable.map fun awaitable =>
      (s.set task { s.frames task with awaitable := some { awaitable with task := none } }).record
        (.released task)
  else none

/-- `link->release_owned(link->owned_task)`. -/
def releaseOwned (s : State) (link : FrameChainLink) : Option State :=
  if link.releaseOwned then link.ownedTask.bind s.abandon else none

end State

/-- The destructor of an awaitable and of the task in it, which hands a frame that it still owns to
`abandon_task_chain`. -/
def destroyAwaitable (abandonTaskChain : FrameId → State → Option State) (s : State)
    (awaitable : TaskAwaitable) : Option State :=
  (if awaitable.registered then awaitable.parent.elim (some s) s.resetChild else some s).bind fun s =>
    match awaitable.task with
    | some frame => abandonTaskChain frame (s.record (.abandoned frame))
    | none => some s

/-- `destroy` of a coroutine handle. -/
def destroy (abandonTaskChain : FrameId → State → Option State) (s : State) (f : FrameId) : Option State :=
  if (s.frames f).alive then
    ((s.frames f).awaitable.elim (some s) (destroyAwaitable abandonTaskChain s)).map fun s =>
      (s.set f { s.frames f with alive := false }).record (.destroyed f)
  else none

/-- The child of a link and its link, after their owner was released. -/
def takeChild (s : State) : Option FrameId → Option (Option FrameId × Option FrameId × State)
  | none => some (none, none, s)
  | some l => (s.link? l).bind fun link =>
    if link.childFrame.isSome then
      (s.releaseOwned link).map fun s => (link.childFrame, link.childLink, s)
    else some (none, none, s)

/-- A link turned back to the frame before. -/
def turnBack (s : State) (previous previousLink : Option FrameId) : Option FrameId → Option State
  | none => some s
  | some l => (s.link? l).bind fun link =>
    s.setLink l { link with childFrame := previous, childLink := previousLink }

/-- The first loop of `destroy_frame_chain`. -/
def detach : ℕ → Option FrameId → Option FrameId → Option FrameId → Option FrameId → State →
    Option (Option FrameId × Option FrameId × State)
  | _, none, _, previous, previousLink, s => some (previous, previousLink, s)
  | 0, some _, _, _, _, _ => none
  | fuel + 1, some frame, link, previous, previousLink, s =>
    (takeChild s link).bind fun (child, childLink, s) =>
      (turnBack s previous previousLink link).bind fun s =>
        detach fuel child childLink (some frame) link s

/-- The frame before and its link, from a link that was turned back. -/
def frameBefore (s : State) : Option FrameId → Option (Option FrameId × Option FrameId)
  | none => some (none, none)
  | some l => (s.link? l).map fun link => (link.childFrame, link.childLink)

/-- The second loop of `destroy_frame_chain`. -/
def destroyDetached (abandonTaskChain : FrameId → State → Option State) :
    ℕ → Option FrameId → Option FrameId → State → Option State
  | _, none, _, s => some s
  | 0, some _, _, _ => none
  | fuel + 1, some previous, previousLink, s =>
    (frameBefore s previousLink).bind fun (frame, link) =>
      (destroy abandonTaskChain s previous).bind fun s =>
        destroyDetached abandonTaskChain fuel frame link s

/-- `destroy_frame_chain`. -/
def destroyFrameChain (abandonTaskChain : FrameId → State → Option State) (fuel : ℕ)
    (frame link : Option FrameId) (s : State) : Option State :=
  (detach fuel frame link none none s).bind fun (previous, previousLink, s) =>
    destroyDetached abandonTaskChain fuel previous previousLink s

/-- The links that `await_suspend` sets, for the awaitable in frame `f`. Without an environment it sets
none. -/
def awaitSuspend (env : Bool) (s : State) (f : FrameId) : Option State :=
  if (s.frames f).alive then
    (s.frames f).awaitable.bind fun awaitable =>
      if env then
        match awaitable.parent, awaitable.task with
        | some parent, some child =>
          (s.setLink parent ⟨some child, some child, some f, true⟩).map fun s =>
            s.set f { s.frames f with awaitable := some { awaitable with registered := true } }
        | _, _ => some s
      else some s
  else none

/-- `co_await` of a task constructs the awaitable in the awaiting frame. -/
def coAwait (s : State) (f child : FrameId) : State :=
  s.set f { s.frames f with awaitable := some { task := some child, parent := some f } }

/-- A frame that awaits no task. -/
def Leaf (s : State) (f : FrameId) : Prop :=
  (s.frames f).alive = true ∧ (s.frames f).link.childFrame = none ∧ (s.frames f).awaitable = none

/-- The chains that tasks awaiting tasks make. -/
inductive Chain : State → List FrameId → Prop
  | root {s : State} {f : FrameId} : Leaf s f → Chain s [f]
  | await {s s' : State} {above : List FrameId} {f child : FrameId} : Chain s (above ++ [f]) →
      child ∉ above ++ [f] → Leaf s child → awaitSuspend true (coAwait s f child) f = some s' →
      Chain s' (above ++ [f, child])
  /-- The awaited task is over, and `f` runs on. -/
  | resume {s s' : State} {above : List FrameId} {f child : FrameId} : Chain s (above ++ [f, child]) →
      (∀ g ∈ above, s'.frames g = s.frames g) → Leaf s' f → Chain s' (above ++ [f])
  /-- Something happens outside the chain. -/
  | other {s s' : State} {frames : List FrameId} : Chain s frames →
      (∀ g ∈ frames, s'.frames g = s.frames g) → Chain s' frames

end CCForge.FrameChain
