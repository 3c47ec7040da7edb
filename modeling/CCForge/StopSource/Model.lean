import CCForge.Lib.Run
import CCForge.Lib.Threads

/-!
# The in-place stop source

One stop source, the callback objects registered with it and the threads that
construct, destroy and invoke them. A step is one section under the source mutex or
under the mutex of a callback's control block, or the start or the end of an
invocation. `request_stop` holds the source mutex while it visits the control block
of every callback on its list, so each of these visits is a step of its own.

A callback runs user code: it may construct and destroy callbacks, itself included,
and request a stop again.
-/

namespace CCForge.StopSource

abbrev CallbackId := ℕ
abbrev ThreadId := ℕ

/-- The control block of a callback. `object` stands for `object` and `invoke_fn`,
which are set and cleared together. -/
structure Control where
  requestThread : Option ThreadId := none
  object : Bool := false
  detached : Bool := false
  running : Bool := false
  cancelled : Bool := false
  deriving DecidableEq, Repr

/-- How far the constructor of a callback got. -/
inductive Built where
  | unborn
  | constructing
  | registered
  | invoked
  deriving DecidableEq, Repr

structure Callback where
  control : Control := {}
  /-- `source_` is set. -/
  source : Bool := false
  /-- `prev` is set: the object is on a list. -/
  prev : Bool := false
  built : Built := .unborn
  /-- The destructor has been called. -/
  doomed : Bool := false
  /-- The threads on which an invocation started and ended. -/
  started : List ThreadId := []
  ended : List ThreadId := []
  /-- The thread on which the destructor returned, and whether it was called from
  inside the invocation that the callback's own constructor makes. -/
  destroyed : Option (ThreadId × Bool) := none
  deriving DecidableEq, Repr

inductive Frame where
  /-- The constructor before `try_add_callback`. -/
  | constructing (c : CallbackId)
  /-- The constructor of a callback that came too late, before its invocation. -/
  | inline (c : CallbackId)
  | runningInline (c : CallbackId)
  /-- `request_stop` under the source mutex, with the callbacks still to detach. -/
  | detaching (raw head : List CallbackId)
  /-- `request_stop` before it looks at the first control block of `head`. -/
  | invoking (head : List CallbackId)
  | chosen (c : CallbackId) (head : List CallbackId)
  | running (c : CallbackId) (head : List CallbackId)
  | finishing (c : CallbackId) (head : List CallbackId)
  /-- The destructor before `remove_callback`. -/
  | removing (c : CallbackId)
  /-- The destructor before its last locked section. -/
  | cancelling (c : CallbackId)
  | waiting (c : CallbackId)
  deriving DecidableEq, Repr

structure State where
  stopRequested : Bool := false
  /-- The thread that holds the source mutex from one step to the next. -/
  mtx : Option ThreadId := none
  callbacks : List CallbackId := []
  callback : CallbackId → Callback := fun _ => {}
  stack : ThreadId → List Frame := fun _ => []
  /-- The thread whose `request_stop` set the flag. -/
  requester : Option ThreadId := none
  /-- What the calls of `request_stop` returned so far. -/
  results : List Bool := []

/-- Whether the innermost frame runs user code. -/
def foreign : List Frame → Bool
  | [] => true
  | .running _ _ :: _ => true
  | .runningInline _ :: _ => true
  | _ => false

namespace State

@[simp] def setStack (s : State) (t : ThreadId) (frames : List Frame) : State :=
  { s with stack := Function.update s.stack t frames }

@[simp] def setCallback (s : State) (c : CallbackId) (f : Callback → Callback) : State :=
  { s with callback := Function.update s.callback c (f (s.callback c)) }

def tryAddCallback (s : State) (c : CallbackId) : Option State :=
  if s.stopRequested then none
  else some { s.setCallback c fun cb => { cb with prev := true } with
    callbacks := c :: s.callbacks }

def removeCallback (s : State) (c : CallbackId) : State :=
  if (s.callback c).prev then
    { s.setCallback c fun cb => { cb with prev := false } with callbacks := s.callbacks.erase c }
  else s

/-- The section of `request_stop` under the control mutex of one listed callback. -/
def detach (t : ThreadId) (cb : Callback) : Callback :=
  { cb with
    prev := false
    control := { cb.control with
      detached := true, requestThread := some t, object := true, cancelled := false } }

/-- The section after an invocation, and after a look that found nothing to invoke. -/
def finish (cb : Callback) : Callback :=
  { cb with control := { cb.control with running := false, cancelled := true, object := false } }

def cancel (cb : Callback) : Callback :=
  { cb with control := { cb.control with cancelled := true, object := false } }

/-- The destructor of `c` returns on thread `t` to the frames `rest`. -/
def destroyReturn (s : State) (t : ThreadId) (c : CallbackId) (rest : List Frame) : State :=
  (s.setCallback c fun cb =>
    { cb with destroyed := some (t, decide (.runningInline c ∈ rest)) }).setStack t rest

/-- The next step of thread `t` that is not the end of an invocation. -/
def advance (s : State) (t : ThreadId) : Option State :=
  match s.stack t with
  | .constructing c :: rest =>
    if s.mtx = none then
      some <| match s.tryAddCallback c with
        | some s => (s.setCallback c fun cb => { cb with built := .registered }).setStack t rest
        | none => (s.setCallback c fun cb => { cb with source := false }).setStack t
            (.inline c :: rest)
    else none
  | .inline c :: rest =>
    some ((s.setCallback c fun cb => { cb with started := cb.started ++ [t] }).setStack t
      (.runningInline c :: rest))
  | .detaching (c :: raw) head :: rest =>
    some ((s.setCallback c (detach t)).setStack t (.detaching raw (head ++ [c]) :: rest))
  | .detaching [] head :: rest => some { s.setStack t (.invoking head :: rest) with mtx := none }
  | .invoking (c :: head) :: rest =>
    let control := (s.callback c).control
    if control.cancelled = false ∧ control.object = true then
      some ((s.setCallback c fun cb =>
        { cb with control := { cb.control with running := true } }).setStack t
          (.chosen c head :: rest))
    else some (s.setStack t (.finishing c head :: rest))
  | .invoking [] :: rest => some { s.setStack t rest with results := s.results ++ [true] }
  | .chosen c head :: rest =>
    some ((s.setCallback c fun cb => { cb with started := cb.started ++ [t] }).setStack t
      (.running c head :: rest))
  | .finishing c head :: rest => some ((s.setCallback c finish).setStack t (.invoking head :: rest))
  | .removing c :: rest =>
    if s.mtx = none then some ((s.removeCallback c).setStack t (.cancelling c :: rest)) else none
  | .cancelling c :: rest =>
    let s := s.setCallback c cancel
    let control := (s.callback c).control
    if control.running = true ∧ control.requestThread ≠ some t then
      some (s.setStack t (.waiting c :: rest))
    else some (s.destroyReturn t c rest)
  | .waiting c :: rest =>
    if (s.callback c).control.running = false then some (s.destroyReturn t c rest) else none
  | _ => none

/-- The invocation on top of the stack of thread `t` ends. -/
def ret (s : State) (t : ThreadId) : Option State :=
  match s.stack t with
  | .runningInline c :: rest =>
    some ((s.setCallback c fun cb =>
      { cb with ended := cb.ended ++ [t], built := .invoked }).setStack t rest)
  | .running c head :: rest =>
    some ((s.setCallback c fun cb => { cb with ended := cb.ended ++ [t] }).setStack t
      (.finishing c head :: rest))
  | _ => none

end State

/-- Calls made by user code on a thread, and the steps of the calls under way. -/
inductive Label where
  | construct (t : ThreadId) (c : CallbackId)
  | destroy (t : ThreadId) (c : CallbackId)
  | requestStop (t : ThreadId)
  | advance (t : ThreadId)
  | ret (t : ThreadId)
  deriving DecidableEq, Repr

/-- An object may be destroyed once its constructor is done, or by the invocation that
its constructor makes. -/
def Destructible (s : State) (t : ThreadId) (c : CallbackId) : Prop :=
  (s.callback c).doomed = false ∧
    ((s.callback c).built = .registered ∨ (s.callback c).built = .invoked ∨
      .runningInline c ∈ s.stack t)

instance (s : State) (t : ThreadId) (c : CallbackId) : Decidable (Destructible s t c) :=
  inferInstanceAs (Decidable (_ ∧ _))

def step (s : State) : Label → Option State
  | .construct t c =>
    if foreign (s.stack t) ∧ (s.callback c).built = .unborn then
      some ((s.setCallback c fun cb =>
        { cb with source := true, built := .constructing
                  control := { cb.control with object := true } }).setStack t
          (.constructing c :: s.stack t))
    else none
  | .destroy t c =>
    if foreign (s.stack t) ∧ Destructible s t c then
      some ((s.setCallback c fun cb => { cb with doomed := true }).setStack t
        (if (s.callback c).source ∧ (s.callback c).control.detached = false
          then .removing c :: s.stack t else .cancelling c :: s.stack t))
    else none
  | .requestStop t =>
    if foreign (s.stack t) ∧ s.mtx = none then
      some <| if s.stopRequested then { s with results := s.results ++ [false] }
      else
        { s.setStack t (.detaching s.callbacks [] :: s.stack t) with
          stopRequested := true, mtx := some t, callbacks := [], requester := some t }
    else none
  | .advance t => s.advance t
  | .ret t => s.ret t

end CCForge.StopSource
