import CCForge.Lib.Run

/-!
# split

The subscribers of a `split` sender share the execution of one source. The first to
start it starts the source, the others leave a callback or, once the result is there,
deliver it to themselves. The completion of the source stores the result, marks the
state done, takes the callbacks and runs them.

A step is one section under the shared mutex, one access to a weak pointer or to the
flag `active` of a subscriber, or the begin of a receiver's completion. The completion
of the source runs on any thread, inside of `op_start` too, and the users may connect,
start and destroy subscribers at any time.
-/

namespace CCForge.Split

abbrev OpId := ℕ

inductive Phase where
  | idle
  | running
  | done
  deriving DecidableEq, Repr

/-- What the completion signatures of the source allow it to send. -/
structure Signatures where
  value : Bool
  stopped : Bool
  deriving DecidableEq, Repr

inductive Signal (V E : Type) where
  | value (values : List V)
  | error (error : E)
  | stopped
  deriving DecidableEq, Repr

/-- The result variant. It is valueless after a store that threw. -/
inductive Result (V E : Type) where
  | monostate
  | value (values : List V)
  | error (error : E)
  | stopped
  | valueless
  deriving DecidableEq, Repr

inductive Completion (V E : Type) where
  | value (values : List V)
  | error (error : E)
  | stopped
  deriving DecidableEq, Repr

/-- Where the call of `start` of a subscriber stands. -/
inductive Call (E : Type) where
  | connected
  /-- The callback is made. -/
  | registering
  /-- The first subscriber before `op_start`. -/
  | sourceStart
  /-- Inside of `op_start`. -/
  | inSource
  /-- Before the exchange of `deliver_to_subscriber`. -/
  | direct
  /-- Before the exchange of `deliver_exception_to_subscriber`. -/
  | failing (error : E)
  /-- The exchange was won, the receiver not yet completed. -/
  | delivering
  | deliveringError (error : E)
  | returned
  deriving DecidableEq, Repr

structure Sub (E : Type) where
  call : Call E := .connected
  active : Bool := true
  /-- The operation is destroyed. -/
  destroyed : Bool := false
  /-- What its own registration threw, when the source was not its to start. -/
  threw : Option E := none
  deriving DecidableEq, Repr

/-- Where the completion of the source stands. -/
inductive Source (E : Type) where
  | idle
  | running
  /-- The state was gone when the source completed. -/
  | lost
  /-- The store of the values threw. -/
  | caught (error : E)
  /-- Before the section of `notify_all`. -/
  | notifying
  | calling (callbacks : List OpId)
  /-- In the callback of `op` after its weak pointer locked. -/
  | locked (op : OpId) (callbacks : List OpId)
  /-- In the callback of `op` after the exchange was won. -/
  | delivering (op : OpId) (callbacks : List OpId)
  deriving DecidableEq, Repr

structure State (V E : Type) where
  signatures : Signatures
  phase : Phase := .idle
  result : Result V E := .monostate
  onDone : List OpId := []
  source : Source E := .idle
  /-- A sender that refers to the shared state exists. -/
  sender : Bool := true
  ops : List OpId := []
  sub : OpId → Sub E := fun _ => {}
  sourceStarts : ℕ := 0
  /-- What the registration of the first subscriber threw. -/
  firstThrew : Option E := none
  completed : List (OpId × Completion V E) := []
  /-- The deliveries that found the subscriber gone or inactive. -/
  dropped : List OpId := []
  terminated : Bool := false

namespace Call

variable {E : Type}

/-- The call has begun and not returned. -/
def inProgress : Call E → Bool
  | .connected | .returned => false
  | _ => true

def isConnected : Call E → Bool
  | .connected => true
  | _ => false

end Call

def Source.isRunning {E : Type} : Source E → Bool
  | .running => true
  | _ => false

namespace State

variable {V E : Type}

@[simp] def setSub (s : State V E) (op : OpId) (x : Sub E) : State V E :=
  { s with sub := Function.update s.sub op x }

@[simp] def setCall (s : State V E) (op : OpId) (call : Call E) : State V E :=
  s.setSub op { s.sub op with call := call }

/-- The shared state has an owner: a sender, an operation, a call or a callback. -/
def Owned (s : State V E) : Prop :=
  s.sender = true ∨ s.onDone ≠ [] ∨
    ∃ op ∈ s.ops, (s.sub op).destroyed = false ∨ (s.sub op).call.inProgress = true

instance (s : State V E) : Decidable s.Owned :=
  match s.onDone with
  | [] => inferInstanceAs (Decidable (_ ∨ _ ∨ _))
  | _ :: _ => inferInstanceAs (Decidable (_ ∨ _ ∨ _))

/-- What `deliver_result` sends, or nothing where it terminates. -/
def cached (s : State V E) : Option (Completion V E) :=
  match s.result with
  | .monostate | .valueless => none
  | .value values => if s.signatures.value then some (.value values) else none
  | .error error => some (.error error)
  | .stopped => if s.signatures.stopped then some .stopped else none

def deliverResult (s : State V E) (op : OpId) : State V E :=
  match s.cached with
  | some completion => { s with completed := s.completed ++ [(op, completion)] }
  | none => { s with terminated := true }

/-- The section of `start`. `throws` is what `push_back` throws. -/
def register (s : State V E) (op : OpId) (throws : Option E) : State V E :=
  match s.phase, throws with
  | .done, _ => s.setCall op .direct
  | .idle, none =>
    { s.setCall op .sourceStart with phase := .running, onDone := s.onDone ++ [op] }
  | .idle, some error =>
    { s.setCall op .direct with
      phase := .done
      result := .error error
      firstThrew := some error }
  | .running, none => { s.setCall op .returned with onDone := s.onDone ++ [op] }
  | .running, some error =>
    s.setSub op { s.sub op with call := .failing error, threw := some error }

/-- The next step of the call of `start`. -/
def advance (s : State V E) (op : OpId) (throws : Option E) : Option (State V E) :=
  let x := s.sub op
  match x.call with
  | .connected | .returned => none
  | .registering => some (s.register op throws)
  | .sourceStart =>
    some { s.setCall op .inSource with
      source := .running
      sourceStarts := s.sourceStarts + 1 }
  | .inSource => some (s.setCall op .returned)
  | .direct =>
    if x.active then some (s.setSub op { x with active := false, call := .delivering })
    else some { s.setCall op .returned with dropped := s.dropped ++ [op] }
  | .failing error =>
    if x.active then some (s.setSub op { x with active := false, call := .deliveringError error })
    else some { s.setCall op .returned with dropped := s.dropped ++ [op] }
  | .delivering => some ((s.setCall op .returned).deliverResult op)
  | .deliveringError error =>
    some { s.setCall op .returned with completed := s.completed ++ [(op, .error error)] }

/-- The first section of the completion of the source. `throws` is what the store of the values
throws. -/
def complete (s : State V E) (signal : Signal V E) (throws : Option E) : State V E :=
  if ¬s.Owned then { s with source := .lost }
  else
    match signal, throws with
    | .value _, some error => { s with result := .valueless, source := .caught error }
    | .value values, none =>
      { s with result := .value values, phase := .done, source := .notifying }
    | .error error, _ => { s with result := .error error, phase := .done, source := .notifying }
    | .stopped, _ => { s with result := .stopped, phase := .done, source := .notifying }

/-- The next step of the completion of the source. -/
def notify (s : State V E) : Option (State V E) :=
  match s.source with
  | .caught error =>
    some { s with result := .error error, phase := .done, source := .notifying }
  | .notifying => some { s with onDone := [], source := .calling s.onDone }
  | .calling (op :: callbacks) =>
    let x := s.sub op
    if x.destroyed = false ∨ x.call.inProgress then some { s with source := .locked op callbacks }
    else some { s with source := .calling callbacks, dropped := s.dropped ++ [op] }
  | .locked op callbacks =>
    let x := s.sub op
    if x.active then
      some { s.setSub op { x with active := false } with source := .delivering op callbacks }
    else some { s with source := .calling callbacks, dropped := s.dropped ++ [op] }
  | .delivering op callbacks => some ({ s with source := .calling callbacks }.deliverResult op)
  | _ => none

end State

/-- The signatures of the source allow the signal. -/
def Signatures.allow {V E : Type} (signatures : Signatures) : Signal V E → Bool
  | .value _ => signatures.value
  | .error _ => true
  | .stopped => signatures.stopped

inductive Label (V E : Type) where
  | connect (op : OpId)
  | dropSender
  /-- `start` makes its callback, which may throw. -/
  | start (op : OpId) (throws : Option E)
  | advance (op : OpId) (throws : Option E)
  | destroy (op : OpId)
  | complete (signal : Signal V E) (throws : Option E)
  | notify
  deriving DecidableEq, Repr

variable {V E : Type}

/-- Every operation is started at most once, and the source completes once. -/
def step (s : State V E) : Label V E → Option (State V E)
  | .connect op =>
    if s.sender ∧ op ∉ s.ops then some { s with ops := s.ops ++ [op] } else none
  | .dropSender => some { s with sender := false }
  | .start op throws =>
    let x := s.sub op
    if op ∈ s.ops ∧ x.call.isConnected ∧ x.destroyed = false then
      match throws with
      | none => some (s.setCall op .registering)
      | some error => some (s.setSub op { x with call := .failing error, threw := some error })
    else none
  | .advance op throws => s.advance op throws
  | .destroy op =>
    let x := s.sub op
    if op ∈ s.ops ∧ x.destroyed = false then
      some (s.setSub op { x with active := false, destroyed := true })
    else none
  | .complete signal throws =>
    if s.source.isRunning ∧ s.signatures.allow signal then some (s.complete signal throws)
    else none
  | .notify => s.notify

/-- A sender and its shared state, before any operation is connected. -/
def Initial (s : State V E) : Prop := ∃ signatures, s = { signatures := signatures }

end CCForge.Split
