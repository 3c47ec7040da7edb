import CCForge.Lib.Run

/-!
# The asynchronous scope

A scope counts the spawned operations behind a mutex. A spawned operation lives in a
node with two references: one is dropped when the call that starts the operation is
over, the other when the operation has completed. Whoever drops the last reference
destroys the node and then tells the scope.

A step is one locked section of the scope or one atomic of a node, with the unlocked
code before it. The operations are the users' code. They may signal from any thread,
from inside of their start and more than once, while they exist: the operation is a
member of its node.
-/

namespace CCForge.AsyncScope

/-- A call of `spawn` and the node that it makes. -/
abbrev SpawnId := ℕ
abbrev Error := ℕ

/-- What an operation signals. An error arrives as an exception pointer, which is null
if the operation passes a null one on. -/
inductive Signal where
  | value
  | error (error : Option Error)
  | stopped
  deriving DecidableEq, Repr

def Signal.error? : Signal → Option Error
  | .error e => e
  | _ => none

/-! ## The data of the scope -/

structure Shared where
  active : ℕ := 0
  closed : Bool := false
  firstError : Option Error := none
  deriving DecidableEq, Repr

namespace Shared

def tryAcquire (s : Shared) : Shared × Bool :=
  if s.closed then (s, false) else ({ s with active := s.active + 1 }, true)

def complete (s : Shared) (error : Option Error) : Shared :=
  let s := if error ≠ none ∧ s.firstError = none then { s with firstError := error } else s
  if 0 < s.active then { s with active := s.active - 1 } else s

def close (s : Shared) : Shared := { s with closed := true }

/-- The predicate that `wait` blocks on. -/
def Idle (s : Shared) : Prop := s.active = 0

instance (s : Shared) : Decidable s.Idle := inferInstanceAs (Decidable (_ = _))

end Shared

/-! ## Nodes -/

/-- The end of a call that drops a reference. -/
inductive Tail where
  /-- It dropped the last one and is before `destroy_self`. -/
  | destroying
  /-- The node is destroyed, the scope not yet told. -/
  | publishing (error : Option Error)
  | returned
  deriving DecidableEq, Repr

/-- Where the call of `spawn` stands. -/
inductive Starter where
  | idle
  | refused
  | acquired
  /-- In the handler for the exception that kept the node from being made. -/
  | failed (error : Error)
  | abandoned
  | constructed
  /-- In `start_impl`. -/
  | starting
  | after (tail : Tail)
  deriving DecidableEq, Repr

/-- Where the signal stands that completes the node. -/
inductive Completer where
  | idle
  /-- After the exchange of `completed_`. -/
  | claimed (error : Option Error)
  | after (tail : Tail)
  deriving DecidableEq, Repr

/-- A call of `spawn`, its node and the signal that completes it. -/
structure Spawn where
  starter : Starter := .idle
  completer : Completer := .idle
  /-- The node exists. -/
  alive : Bool := false
  refs : ℕ := 0
  completed : Bool := false
  completionError : Option Error := none
  /-- What the node came to: its first signal, or the exception that kept it from being made. -/
  outcome : Option (Option Error) := none
  deriving DecidableEq, Repr

/-- The two owners of a node. -/
inductive Side where
  | starter
  | completer
  deriving DecidableEq, Repr

namespace Spawn

def tail (x : Spawn) : Side → Option Tail
  | .starter => match x.starter with
    | .after tail => some tail
    | _ => none
  | .completer => match x.completer with
    | .after tail => some tail
    | _ => none

def setTail (x : Spawn) (tail : Tail) : Side → Spawn
  | .starter => { x with starter := .after tail }
  | .completer => { x with completer := .after tail }

def addRef (x : Spawn) : Spawn := { x with refs := x.refs + 1 }

/-- `release` up to the call of `destroy_self`. -/
def release (x : Spawn) (side : Side) : Spawn :=
  { x with refs := x.refs - 1 }.setTail (if x.refs = 1 then .destroying else .returned) side

end Spawn

/-! ## Steps -/

structure State where
  shared : Shared := {}
  stopRequested : Bool := false
  spawns : SpawnId → Spawn := fun _ => {}
  /-- The successful calls of `try_acquire`. -/
  acquired : List SpawnId := []
  destroyed : List SpawnId := []
  /-- The calls of `complete` on the scope. -/
  published : List (SpawnId × Option Error) := []
  /-- A node was used after it was destroyed. -/
  fault : Bool := false

namespace State

@[simp] def setSpawn (s : State) (id : SpawnId) (x : Spawn) : State :=
  { s with spawns := Function.update s.spawns id x }

/-- A use of the node. -/
def use (s : State) (id : SpawnId) (next : State) : State :=
  if (s.spawns id).alive then next else { s with fault := true }

/-- The section of `complete`, made for the spawn `id`. -/
def publish (s : State) (id : SpawnId) (error : Option Error) (x : Spawn) : State :=
  { s.setSpawn id x with
    shared := s.shared.complete error
    published := s.published ++ [(id, error)] }

end State

inductive Label where
  | tryAcquire (id : SpawnId)
  /-- The allocation and the construction of the node, which may throw. -/
  | construct (id : SpawnId) (failure : Option Error)
  | fail (id : SpawnId)
  | start (id : SpawnId)
  | startReturns (id : SpawnId)
  | signal (id : SpawnId) (signal : Signal)
  | complete (id : SpawnId)
  | destroySelf (id : SpawnId) (side : Side)
  | publish (id : SpawnId) (side : Side)
  | close
  | requestStop
  | wait
  deriving DecidableEq, Repr

def step (s : State) : Label → Option State
  | .tryAcquire id =>
    let x := s.spawns id
    if x.starter = .idle then
      match s.shared.tryAcquire with
      | (_, false) => some (s.setSpawn id { x with starter := .refused })
      | (shared, true) =>
        some { s.setSpawn id { x with starter := .acquired } with
          shared := shared
          acquired := s.acquired ++ [id] }
    else none
  | .construct id failure =>
    let x := s.spawns id
    if x.starter = .acquired then
      match failure with
      | none => some (s.setSpawn id { x with starter := .constructed, alive := true, refs := 1 })
      | some error =>
        some (s.setSpawn id { x with starter := .failed error, outcome := some (some error) })
    else none
  | .fail id =>
    let x := s.spawns id
    match x.starter with
    | .failed error => some (s.publish id (some error) { x with starter := .abandoned })
    | _ => none
  | .start id =>
    let x := s.spawns id
    if x.starter = .constructed then
      some (s.use id (s.setSpawn id { x.addRef with starter := .starting }))
    else none
  | .startReturns id =>
    let x := s.spawns id
    if x.starter = .starting then some (s.use id (s.setSpawn id (x.release .starter))) else none
  | .signal id signal =>
    let x := s.spawns id
    if x.alive ∧ x.starter ≠ .constructed then
      if x.completed then some s
      else some (s.setSpawn id { x with
        completed := true
        completer := .claimed signal.error?
        outcome := some signal.error? })
    else none
  | .complete id =>
    let x := s.spawns id
    match x.completer with
    | .claimed error =>
      some (s.use id (s.setSpawn id ({ x with completionError := error }.release .completer)))
    | _ => none
  | .destroySelf id side =>
    let x := s.spawns id
    if x.tail side = some .destroying then
      some (s.use id { s.setSpawn id ({ x with
          alive := false
          completionError := none }.setTail (.publishing x.completionError) side) with
        destroyed := s.destroyed ++ [id] })
    else none
  | .publish id side =>
    let x := s.spawns id
    match x.tail side with
    | some (.publishing error) => some (s.publish id error (x.setTail .returned side))
    | _ => none
  | .close => some { s with shared := s.shared.close }
  | .requestStop => some { s with stopRequested := true }
  | .wait => if s.shared.Idle then some s else none

def Initial (s : State) : Prop := s = {}

end CCForge.AsyncScope
