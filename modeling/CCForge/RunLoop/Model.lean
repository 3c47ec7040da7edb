import CCForge.Lib.Run
import CCForge.Lib.Census
import CCForge.Lib.LinkedList

/-!
# The run loop

The queue of a run loop is threaded through the operations that wait in it. The
heap says which operations exist: an operation may be destroyed, and another one
constructed in its place, as soon as its receiver has been called. Each field access
of the loop goes through the heap, and an access to an operation that is not there
sets `fault`.

A step is one locked section, the call of a receiver up to its begin, the return of
a receiver, or something that the users of the loop do: construct, start or destroy
an operation, call `run` or `finish`. A receiver is the users' code, so all of these
are enabled while it runs. The parties are the calls of `run`, nested ones too.

The fields after `fault` record the history of a run. Steps read them only to say
when an operation belongs to the loop and must be left alone by its owner.
-/

namespace CCForge.RunLoop

/-- The address of an operation. -/
abbrev NodeId := ℕ

inductive Signal where
  | value
  | stopped
  deriving DecidableEq, Repr

/-- The part of an operation that the queue uses. -/
structure Node where
  next : Option NodeId := none
  deriving DecidableEq, Repr

/-- Where a call of `run` stands. A popped node carries its number in push order. -/
inductive Caller where
  | outside
  /-- Before `__pop`. -/
  | popping
  /-- Before `t->__execute(t)` has called the receiver. -/
  | popped (k : ℕ) (t : NodeId)
  /-- Inside the receiver. -/
  | calling (k : ℕ)
  /-- Before the section that decrements. -/
  | decrementing (k : ℕ)
  deriving DecidableEq, Repr

/-- The node that the call is about to execute. -/
def Caller.holds : Caller → Option NodeId
  | .popped _ t => some t
  | _ => none

structure State (n : ℕ) where
  heap : NodeId → Option Node := fun _ => none
  head : Option NodeId := none
  tail : Option NodeId := none
  finishing : Bool := false
  taskCount : ℕ := 0
  caller : Fin n → Caller := fun _ => .outside
  /-- An operation was accessed that does not exist. -/
  fault : Bool := false
  pushed : List NodeId := []
  popped : List NodeId := []
  /-- The calls of receivers, with the number of the node in push order. -/
  executed : List (ℕ × NodeId × Signal) := []

namespace State

variable {n : ℕ}

def next (s : State n) (t : NodeId) : Option NodeId := (s.heap t).bind Node.next

/-- The nodes pushed and not yet popped, in push order. -/
def waiting (s : State n) : List NodeId := s.pushed.drop s.popped.length

/-- The operation belongs to the loop: its receiver has still to be called. -/
def InUse (s : State n) (t : NodeId) : Prop :=
  t ∈ s.waiting ∨ ∃ c, (s.caller c).holds = some t

instance (s : State n) (t : NodeId) : Decidable (s.InUse t) :=
  inferInstanceAs (Decidable (_ ∨ _))

@[simp] def setCaller (s : State n) (c : Fin n) (x : Caller) : State n :=
  { s with caller := Function.update s.caller c x }

/-- `t->__next = x`. -/
def setNext (s : State n) (t : NodeId) (x : Option NodeId) : State n :=
  match s.heap t with
  | none => { s with fault := true }
  | some _ => { s with heap := Function.update s.heap t (some { next := x }) }

def finish (s : State n) : State n := { s with finishing := true }

def push (s : State n) (t : NodeId) : State n :=
  let s := s.setNext t none
  let s := match s.tail with
    | some u => s.setNext u (some t)
    | none => { s with head := some t }
  { s with tail := some t, taskCount := s.taskCount + 1, pushed := s.pushed ++ [t] }

/-- `__pop` of the call `c`, which leaves the loop of `run` when it returns null. -/
def pop (s : State n) (c : Fin n) : Option (State n) :=
  match s.head with
  | none => if s.finishing then some (s.setCaller c .outside) else none
  | some t =>
    match s.heap t with
    | none => some { s with fault := true }
    | some node =>
      let s := { s with head := node.next }
      let s := if s.head = none then { s with tail := none } else s
      some ({ s with popped := s.popped ++ [t] }.setCaller c (.popped s.popped.length t))

/-- `t->__execute(t)` up to the call of the receiver. -/
def execute (s : State n) (c : Fin n) (k : ℕ) (t : NodeId) (stopRequested : Bool) : State n :=
  match s.heap t with
  | none => { s with fault := true }
  | some _ =>
    let sig : Signal := if stopRequested then .stopped else .value
    { s with executed := s.executed ++ [(k, t, sig)] }.setCaller c (.calling k)

/-- The next step of the call `c` of `run`. -/
def advance (s : State n) (c : Fin n) (stopRequested : Bool) : Option (State n) :=
  match s.caller c with
  | .outside => none
  | .popping => s.pop c
  | .popped k t => some (s.execute c k t stopRequested)
  | .calling k => some (s.setCaller c (.decrementing k))
  | .decrementing _ => some ({ s with taskCount := s.taskCount - 1 }.setCaller c .popping)

/-- The destructor of the loop calls `std::terminate`. -/
def DestructorTerminates (s : State n) : Prop := s.taskCount > 0

end State

/-- The steps of a run loop and its users. -/
inductive Label (n : ℕ) where
  | construct (t : NodeId)
  | destroy (t : NodeId)
  | start (t : NodeId)
  | finish
  | run (c : Fin n)
  | advance (c : Fin n) (stopRequested : Bool)
  deriving DecidableEq, Repr

variable {n : ℕ}

def step (s : State n) : Label n → Option (State n)
  | .construct t =>
    if s.heap t = none then some { s with heap := Function.update s.heap t (some {}) } else none
  | .destroy t =>
    if s.heap t ≠ none ∧ ¬s.InUse t then
      some { s with heap := Function.update s.heap t none }
    else none
  | .start t => if s.heap t ≠ none ∧ ¬s.InUse t then some (s.push t) else none
  | .finish => some s.finish
  | .run c => if s.caller c = .outside then some (s.setCaller c .popping) else none
  | .advance c stopRequested => s.advance c stopRequested

end CCForge.RunLoop
