import CCForge.IoCombinators.Result
import CCForge.Lib.Run

/-!
# The shared state of two children

`when_any_results` and `when_all_results` share the way their two children complete. A
child stores its outcome in one section of the mutex, may ask the children to stop, and
finishes in a second section. The last one to finish, or a start error, builds the action
that completes the receiver, and delivers it outside of the mutex.

The two differ in what they store and in the action they build from it: that part is the
`Policy`. A step is one section or one call outside of it, and the calls of both children
and of `set_start_error` run on any threads. A child may complete any number of times.
-/

namespace CCForge.IoCombinators

inductive Child where
  | first
  | second
  deriving DecidableEq, Repr

def Child.other : Child → Child
  | .first => .second
  | .second => .first

/-- How a child completes. -/
inductive Signal (X E : Type) where
  | result (r : IoResult X)
  | stopped
  | error (e : E)
  deriving DecidableEq, Repr

/-- The completion action. A null `exception_ptr` is `none`, and `invalid` stands for the read of
an empty optional. -/
inductive Outcome (A E : Type) where
  | value (a : IoResult A)
  | error (e : Option E)
  | stopped
  | invalid
  deriving DecidableEq, Repr

/-- A completion of a child, with what storing its result throws. -/
abbrev Store (V : Child → Type) (E : Type) := (i : Child) × Signal (V i) E × Option E

/-- What the children store, and what the receiver gets for it. -/
structure Policy (V : Child → Type) (E A D : Type) where
  init : D
  /-- What a store section leaves, and whether the children are asked to stop after it. -/
  store : D → Store V E → D × Bool
  startError : D → E → D
  /-- The action of `maybe_complete_locked`. The last argument is what building it throws. -/
  outcome : D → Option E → Outcome A E

/-- Where a call stands. -/
inductive Call (O : Type) where
  | idle
  /-- Before `request_stop`. -/
  | stopping
  /-- Before `finish_child`. -/
  | finishing
  /-- Before `deliver`. -/
  | delivering (action : Option O)
  | returned
  deriving DecidableEq, Repr

inductive StartCall (O : Type) where
  | idle
  | stopping (action : Option O)
  | delivering (action : Option O)
  | returned
  deriving DecidableEq, Repr

structure State (V : Child → Type) (E A D : Type) where
  data : D
  pending : ℕ := 2
  completionSent : Bool := false
  done : Child → Bool := fun _ => false
  stopRequested : Bool := false
  call : Child → Call (Outcome A E) := fun _ => .idle
  startCall : StartCall (Outcome A E) := .idle
  completed : List (Outcome A E) := []
  /-- The stores in the order of their sections. -/
  stores : List (Store V E) := []
  /-- The start error that was recorded. -/
  recorded : Option E := none
  /-- What building the action threw. -/
  threw : Option E := none

namespace State

variable {V : Child → Type} {E A D : Type} (p : Policy V E A D)

@[simp] def setCall (s : State V E A D) (i : Child) (call : Call (Outcome A E)) : State V E A D :=
  { s with call := Function.update s.call i call }

/-- The section of `store_result`, `store_stopped` or `store_error`. -/
def store (s : State V E A D) (x : Store V E) : State V E A D :=
  if s.done x.1 then s
  else
    let (data, stop) := p.store s.data x
    { s.setCall x.1 (if stop then .stopping else .finishing) with
      data := data
      done := Function.update s.done x.1 true
      stores := s.stores ++ [x] }

def maybeComplete (s : State V E A D) (throws : Option E) :
    State V E A D × Option (Outcome A E) :=
  if s.completionSent ∨ s.pending ≠ 0 then (s, none)
  else ({ s with completionSent := true, threw := throws }, some (p.outcome s.data throws))

/-- The section of `store_start_error`. -/
def storeStartError (s : State V E A D) (e : E) : State V E A D :=
  if s.completionSent then { s with startCall := .stopping none }
  else
    let (t, action) := { s with
      data := p.startError s.data e
      recorded := some e
      pending := 0
      done := fun _ => true }.maybeComplete p none
    { t with startCall := .stopping action }

/-- The section of `finish_child`. -/
def finishChild (s : State V E A D) (i : Child) (throws : Option E) : State V E A D :=
  let (t, action) := { s with
    pending := if s.pending ≠ 0 then s.pending - 1 else s.pending }.maybeComplete p throws
  t.setCall i (.delivering action)

def deliver (s : State V E A D) (action : Option (Outcome A E)) : State V E A D :=
  match action with
  | some outcome => { s with completed := s.completed ++ [outcome] }
  | none => s

/-- The next step of the call of a child. `throws` is what building the action throws. -/
def advance (s : State V E A D) (i : Child) (throws : Option E) : Option (State V E A D) :=
  match s.call i with
  | .idle | .returned => none
  | .stopping => some { s.setCall i .finishing with stopRequested := true }
  | .finishing => some (s.finishChild p i throws)
  | .delivering action => some ((s.setCall i .returned).deliver action)

/-- The next step of `set_start_error`. -/
def advanceStart (s : State V E A D) : Option (State V E A D) :=
  match s.startCall with
  | .idle | .returned => none
  | .stopping action => some { s with startCall := .delivering action, stopRequested := true }
  | .delivering action => some ({ s with startCall := .returned }.deliver action)

end State

inductive Label (V : Child → Type) (E : Type) where
  | store (x : Store V E)
  | advance (i : Child) (throws : Option E)
  | startError (e : E)
  | advanceStart

variable {V : Child → Type} {E A D : Type}

def StartCall.isIdle {O : Type} : StartCall O → Bool
  | .idle => true
  | _ => false

def step (p : Policy V E A D) (s : State V E A D) : Label V E → Option (State V E A D)
  | .store x => some (s.store p x)
  | .advance i throws => s.advance p i throws
  | .startError e => if s.startCall.isIdle then some (s.storeStartError p e) else none
  | .advanceStart => s.advanceStart

def Initial (p : Policy V E A D) (s : State V E A D) : Prop := s = { data := p.init }

end CCForge.IoCombinators
