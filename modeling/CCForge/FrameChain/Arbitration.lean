import CCForge.Lib.Run
import Mathlib.Logic.Function.Basic

/-!
# Who destroys a chain of tasks

The root link of a chain of tasks decides between the threads that resume the chain and the
one that abandons it. Each atomic operation on the link is a step. A task of the chain awaits
senders, one at a time, each through a bridge with a generation of its own; the operation of
a sender completes at most once, inside of its `start` or on a thread outside of the chain.

A loop that repeats a compare exchange is one step with the effect of its last round. The
generation counter does not wrap.
-/

namespace CCForge.FrameChain.Arbitration

abbrev ThreadId := ℕ

inductive BridgeState where
  | inactive
  | starting
  | suspended
  | completed
  | abandoned
  deriving DecidableEq, Repr

structure BridgeToken where
  generation : ℕ
  state : BridgeState
  deriving DecidableEq, Repr

def bridgeTransitionAllowed (current desired : BridgeState) : Bool :=
  match desired with
  | .suspended => current == .starting
  | .completed | .abandoned => current == .starting || current == .suspended
  | _ => false

/-- `transition_bridge` returns the state before. Another generation or no bridge is `inactive`. -/
def transitionBridge (active : Option BridgeToken) (generation : ℕ) (desired : BridgeState) :
    BridgeState × Option BridgeToken :=
  match active with
  | none => (.inactive, none)
  | some token =>
    if token.generation = generation then
      if bridgeTransitionAllowed token.state desired then
        (token.state, some { token with state := desired })
      else (token.state, some token)
    else (.inactive, some token)

def clearBridge (active : Option BridgeToken) (generation : ℕ) : Option BridgeToken :=
  active.filter fun token => token.generation != generation

/-- Where a thread is in the code of the chain. -/
inductive Pc where
  | outside
  /-- The coroutine runs. -/
  | body
  /-- A coroutine handle is `pending` in the `resume_scope`, of an awaited task or of the
  task that awaits. -/
  | passing
  /-- `publish_bridge` has exchanged the token. -/
  | published (generation : ℕ)
  | connecting (generation : ℕ)
  | connected (generation : ℕ)
  /-- In `start`, with `completed_inline` of its `sender_start_scope`. -/
  | starting (generation : ℕ) (completedInline : Bool)
  /-- The coroutine goes on in `await_resume`. -/
  | resumed (generation : ℕ)
  /-- In the completion callback of the root. -/
  | callback
  /-- `resume` has returned to `resume_with_credit`. -/
  | unwinding
  deriving DecidableEq, Repr

/-- The thread is inside of a `resume_scope` of the chain. -/
def Pc.scoped : Pc → Bool
  | outside => false
  | _ => true

/-- The operation in the `sender_awaitable` at the end of the chain. -/
structure Op where
  generation : ℕ
  started : Bool := false
  /-- It has called its receiver. -/
  signalled : Bool := false
  deriving DecidableEq, Repr

/-- A call of the receiver of the operation, up to its return or to the resume it makes. -/
structure Delivery where
  generation : ℕ
  thread : ThreadId
  /-- The bridge went from suspended to completed. -/
  won : Bool := false
  deriving DecidableEq, Repr

/-- Where `abandon_task_chain` is. -/
inductive Abandoner where
  | idle
  /-- `abandoning` is stored. -/
  | announced (thread : ThreadId)
  | checking (thread : ThreadId)
  | loading (thread : ThreadId)
  | claiming (thread : ThreadId) (gate : BridgeToken)
  | waiting (thread : ThreadId) (gate : BridgeToken)
  /-- The bridge is still the one of the gate, and `finalized` is loaded next. -/
  | waitingFinalized (thread : ThreadId) (gate : BridgeToken)
  | counting (thread : ThreadId)
  | draining (thread : ThreadId)
  /-- The destruction is left to the last resume. -/
  | deferred
  | ended
  deriving DecidableEq, Repr

def Abandoner.thread : Abandoner → Option ThreadId
  | announced t | checking t | loading t | claiming t _ | waiting t _ | waitingFinalized t _
  | counting t | draining t => some t
  | idle | deferred | ended => none

/-- `destroy_frame_chain` on the chain. -/
inductive Frames where
  | alive
  /-- The destructor of the `sender_awaitable` has tried to claim the bridge. -/
  | destroying (thread : ThreadId) (claimed : Bool)
  | destroyed
  deriving DecidableEq, Repr

structure State where
  started : Bool := false
  finalized : Bool := false
  abandoning : Bool := false
  resumeCount : ℕ := 0
  deferredDestroy : Bool := false
  activeBridge : Option BridgeToken := none
  nextBridgeGeneration : ℕ := 0
  /-- The thread in `__start_borrowed` that has stored `started` and not resumed yet. -/
  launcher : Option ThreadId := none
  pc : ThreadId → Pc := fun _ => .outside
  op : Option Op := none
  delivery : Option Delivery := none
  abandoner : Abandoner := .idle
  frames : Frames := .alive
  /-- What happened so far: the bridges that completed before they were claimed, the resumes
  they caused, and the calls of `destroy_frame_chain`. -/
  won : ℕ → Bool := fun _ => false
  resumes : ℕ → ℕ := fun _ => 0
  teardowns : ℕ := 0

inductive Label where
  | launch (thread : ThreadId)
  | credit
  | publish (thread : ThreadId)
  | checkAbandoning (thread : ThreadId)
  | connect (thread : ThreadId) (throws : Bool)
  | suspend (thread : ThreadId)
  | startReturns (thread : ThreadId)
  | awaitResume (thread : ThreadId)
  | pass (thread : ThreadId)
  | takePending (thread : ThreadId)
  | finish (thread : ThreadId)
  | callbackReturns (thread : ThreadId)
  | unwind (thread : ThreadId)
  | signal (thread : ThreadId)
  | complete
  | resume
  | abandon (thread : ThreadId)
  | arbitrate
  | claim
  | destroy
  deriving DecidableEq, Repr

namespace State

def setPc (s : State) (t : ThreadId) (p : Pc) : State := { s with pc := Function.update s.pc t p }

/-- The thread is not in a launch, a delivery, an abandonment or a destruction. -/
def free (s : State) (t : ThreadId) : Bool :=
  s.launcher != some t && s.delivery.all (fun d => d.thread != t) &&
    s.abandoner.thread != some t &&
    match s.frames with
    | .destroying u _ => u != t
    | _ => true

/-- `destroy_frame_chain` is called. -/
def teardown (s : State) (t : ThreadId) : State :=
  { s with frames := .destroying t false, teardowns := s.teardowns + 1 }

/-- The coroutine is resumed for a bridge. -/
def resumeFor (s : State) (t : ThreadId) (generation : ℕ) : State :=
  { s.setPc t (.resumed generation) with
    resumes := Function.update s.resumes generation (s.resumes generation + 1) }

/-- What a thread that is not busy elsewhere does next. -/
def advance (s : State) (l : Label) (t : ThreadId) : Option State :=
  match l, s.pc t with
  | .publish _, .body =>
    -- the exchange of a token for another one terminates
    if s.activeBridge.isSome then none
    else some { s.setPc t (.published (s.nextBridgeGeneration + 1)) with
      nextBridgeGeneration := s.nextBridgeGeneration + 1
      activeBridge := some ⟨s.nextBridgeGeneration + 1, .starting⟩ }
  | .checkAbandoning _, .published g =>
    some { s.setPc t (.connecting g) with
      activeBridge :=
        if s.abandoning then (transitionBridge s.activeBridge g .abandoned).2 else s.activeBridge }
  | .connect _ false, .connecting g =>
    some { s.setPc t (.connected g) with op := some ⟨g, false, false⟩ }
  | .connect _ true, .connecting g =>
    some { s.setPc t .body with activeBridge := clearBridge s.activeBridge g }
  | .suspend _, .connected g =>
    some { s.setPc t (.starting g false) with
      activeBridge := (transitionBridge s.activeBridge g .suspended).2
      op := s.op.map fun op => { op with started := true } }
  | .startReturns _, .starting g completedInline =>
    some (if completedInline then s.resumeFor t g else s.setPc t .unwinding)
  | .awaitResume _, .resumed g =>
    some { s.setPc t .body with activeBridge := clearBridge s.activeBridge g, op := none }
  | .pass _, .body => some (s.setPc t .passing)
  | .takePending _, .passing => some (s.setPc t .body)
  | .finish _, .body => some { s.setPc t .callback with finalized := true }
  | .callbackReturns _, .callback => some (s.setPc t .unwinding)
  | .unwind _, .unwinding =>
    let after := { s.setPc t .outside with resumeCount := s.resumeCount - 1 }
    some (if s.resumeCount = 1 ∧ s.deferredDestroy then after.teardown t else after)
  | _, _ => none

/-- `__start_borrowed` up to the resume. -/
def launch (s : State) (t : ThreadId) : Option State :=
  if s.started = false ∧ s.abandoner = .idle ∧ s.pc t = .outside then
    some { s with started := true, launcher := some t }
  else none

def credit (s : State) : Option State :=
  s.launcher.map fun t =>
    { s.setPc t .body with launcher := none, resumeCount := s.resumeCount + 1 }

/-- The operation calls its receiver, in its `start` or on a thread outside. -/
def signal (s : State) (t : ThreadId) : Option State :=
  s.op.bind fun op =>
    if op.started ∧ op.signalled = false ∧ s.delivery = none ∧
        (s.pc t = .outside ∨ s.pc t = .starting op.generation false) then
      some { s with
        op := some { op with signalled := true }, delivery := some ⟨op.generation, t, false⟩ }
    else none

/-- The exchange of `complete`. -/
def complete (s : State) : Option State :=
  s.delivery.bind fun d =>
    if d.won then none
    else
      let (prior, active) := transitionBridge s.activeBridge d.generation .completed
      some (if prior = .suspended then
        { s with
          activeBridge := active, delivery := some { d with won := true }
          won := Function.update s.won d.generation true }
      else { s with activeBridge := active, delivery := none })

/-- `complete` after it won the bridge: it defers to the `start` it is in, or resumes. -/
def resume (s : State) : Option State :=
  s.delivery.bind fun d =>
    if d.won then
      if s.pc d.thread = .starting d.generation false then
        some { s.setPc d.thread (.starting d.generation true) with delivery := none }
      else if s.pc d.thread = .outside then
        some { s.resumeFor d.thread d.generation with
          delivery := none, resumeCount := s.resumeCount + 1 }
      else none
    else none

/-- `abandon_task_chain` up to the store of `abandoning`. -/
def abandon (s : State) (t : ThreadId) : Option State :=
  if s.abandoner = .idle then
    some (if s.started then { s with abandoning := true, abandoner := .announced t }
      else { s.teardown t with abandoner := .ended })
  else none

/-- The rest of `abandon_task_chain`. -/
def arbitrate (s : State) : Option State :=
  match s.abandoner with
  | .idle | .deferred | .ended => none
  | .announced t =>
    some (if (s.pc t).scoped then { s with abandoner := .deferred, deferredDestroy := true }
      else { s with abandoner := .checking t })
  | .checking t => some { s with abandoner := if s.finalized then .draining t else .loading t }
  | .loading t => some { s with abandoner := s.activeBridge.elim (.counting t) (.claiming t) }
  | .claiming t gate =>
    let (prior, active) := transitionBridge s.activeBridge gate.generation .abandoned
    some { s with
      activeBridge := active
      abandoner := match prior with
        | .inactive => .checking t
        | .completed => .waiting t gate
        | _ => .draining t }
  | .waiting t gate =>
    some { s with
      abandoner :=
        if s.activeBridge.any (fun token => token.generation == gate.generation) then
          .waitingFinalized t gate
        else .checking t }
  | .waitingFinalized t gate =>
    some { s with abandoner := if s.finalized then .checking t else .waiting t gate }
  | .counting t =>
    some { s with abandoner := if s.resumeCount = 0 then .draining t else .checking t }
  | .draining t =>
    some (if s.resumeCount = 0 then { s.teardown t with abandoner := .ended } else s)

/-- The claim in the destructor of the `sender_awaitable`. -/
def claim (s : State) : Option State :=
  match s.frames with
  | .destroying t false =>
    some { s with
      frames := .destroying t true
      activeBridge := s.op.elim s.activeBridge fun op =>
        (transitionBridge s.activeBridge op.generation .abandoned).2 }
  | _ => none

/-- The operation is destroyed, which waits for a delivery on another thread, then the frames,
and the link with the root. -/
def destroy (s : State) : Option State :=
  match s.frames with
  | .destroying t true =>
    if s.delivery.all fun d => d.thread == t then 
      some { s with frames := .destroyed, op := none, activeBridge := none }
    else none
  | _ => none

def step (s : State) (l : Label) : Option State :=
  match l with
  | .launch t => if s.free t then s.launch t else none
  | .credit => s.credit
  | .signal t => if s.free t then s.signal t else none
  | .complete => s.complete
  | .resume => s.resume
  | .abandon t => if s.free t then s.abandon t else none
  | .arbitrate => s.arbitrate
  | .claim => s.claim
  | .destroy => s.destroy
  | .publish t | .checkAbandoning t | .connect t _ | .suspend t | .startReturns t | .awaitResume t
  | .pass t | .takePending t | .finish t | .callbackReturns t | .unwind t =>
    if s.free t then s.advance l t else none

def IsInitial (s : State) : Prop := s = {}

end State

/-- An abandonment is not concurrent with the initial start, and on the stack of a resume it
comes from the coroutine or from the completion callback, not from inside of `connect` or
`start` of a sender. -/
def Label.Supported (s : State) : Label → Prop
  | .abandon t => s.launcher = none ∧ (s.pc t = .outside ∨ s.pc t = .body ∨ s.pc t = .callback)
  | _ => True

instance (s : State) (l : Label) : Decidable (l.Supported s) := by
  cases l <;> unfold Label.Supported <;> infer_instance

def State.supportedStep (s : State) (l : Label) : Option State :=
  if l.Supported s then s.step l else none

end CCForge.FrameChain.Arbitration
