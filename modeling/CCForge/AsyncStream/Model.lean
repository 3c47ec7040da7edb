import CCForge.IoCombinators.Result
import CCForge.Lib.Run

/-!
# The owning erased read stream

A stream owns its wrapped stream object and one slot for the awaitable of the operation in
flight. `read_some` constructs the awaitable of the wrapped stream in the slot and returns an
erased awaitable that owns the slot, or one with an immediate result. The owner of the slot
resets it when the operation is resumed, fails to start or is abandoned.

A step is one call of the user on a stream or on an erased awaitable. What the wrapped stream
answers is part of the call. A call on an object that does not exist is not enabled. What the
code may not do, using the slot of a destroyed stream or an empty slot, sets `faulted`.
-/

namespace CCForge.AsyncStream

open CCForge.IoCombinators

abbrev StreamId := ℕ
abbrev AwaitableId := ℕ

/-- A wrapped stream object, with the memory resource it was allocated from. -/
structure Object where
  id : ℕ
  memory : ℕ
  deriving DecidableEq, Repr

/-- The operations of `erased_awaitable_slot` for one awaitable type, named by the type. -/
abbrev SlotOperations (T : Type) := T

/-- The slot of a stream. The wrapped awaitables are numbered as they are constructed. -/
structure Slot (T : Type) where
  storage : Option ℕ := none
  operations : Option (SlotOperations T) := none
  active : Bool := false
  deriving DecidableEq, Repr

/-- The operations of a stream for one wrapped stream type. `read` emplaces an awaitable of the
type the wrapped stream returns. -/
structure StreamOperations (T : Type) where
  read : SlotOperations T
  deriving DecidableEq, Repr

structure Stream (T : Type) where
  object : Option Object := none
  operations : Option (StreamOperations T) := none
  memory : ℕ
  operation : Slot T := {}
  deriving DecidableEq, Repr

/-- An `erased_io_awaitable`. Its slot is named by the stream that it is a member of. -/
structure Awaitable where
  slot : Option StreamId := none
  immediateResult : IoResult ℕ := .success 0
  started : Bool := false
  deriving DecidableEq, Repr

/-- What the `await_suspend` of a wrapped awaitable returns. -/
inductive Suspend (H : Type) where
  | void
  | bool (suspended : Bool)
  | handle (next : H)
  deriving DecidableEq, Repr

inductive Exception (E : Type) where
  | logicError (what : String)
  /-- An exception of the wrapped stream or its awaitable. -/
  | wrapped (error : E)
  deriving DecidableEq, Repr

/-- How a call ends. -/
inductive Outcome (E H : Type) where
  | done
  | threw (exception : Exception E)
  | ready (answer : Bool)
  | suspended (next : H)
  | resumed (result : IoResult ℕ)
  /-- `std::terminate` was called. -/
  | terminated
  deriving DecidableEq, Repr

structure State (T : Type) where
  streams : StreamId → Option (Stream T) := fun _ => none
  awaitables : AwaitableId → Option Awaitable := fun _ => none
  /-- How many awaitables were emplaced. -/
  emplaced : ℕ := 0
  /-- The awaitables destroyed by `reset`, in order. -/
  resets : List ℕ := []
  /-- How many wrapped stream objects were made. -/
  objects : ℕ := 0
  /-- The destroyed wrapped stream objects, with the memory resource they were returned to. -/
  freed : List (Object × ℕ) := []
  terminated : Bool := false
  faulted : Bool := false

def operationInProgress : ErrorCode := { value := 115, category := 0 }
def badAddress : ErrorCode := { value := 14, category := 0 }

variable {T E H : Type}

namespace State

def setStream (s : State T) (id : StreamId) (stream : Stream T) : State T :=
  { s with streams := Function.update s.streams id (some stream) }

def removeStream (s : State T) (id : StreamId) : State T :=
  { s with streams := Function.update s.streams id none }

def setAwaitable (s : State T) (id : AwaitableId) (awaitable : Awaitable) : State T :=
  { s with awaitables := Function.update s.awaitables id (some awaitable) }

def removeAwaitable (s : State T) (id : AwaitableId) : State T :=
  { s with awaitables := Function.update s.awaitables id none }

def fault (s : State T) : State T := { s with faulted := true }

/-! ## The slot -/

/-- `erased_awaitable_slot::emplace` on the slot of a stream. -/
def emplace (s : State T) (id : StreamId) (stream : Stream T) (operations : SlotOperations T)
    (factory : Except E Unit) : State T × Except E Awaitable :=
  if stream.operation.active then
    (s, .ok { immediateResult := .failure operationInProgress 0 })
  else
    match factory with
    | .error error =>
      (s.setStream id { stream with operation := { stream.operation with active := false } },
        .error error)
    | .ok _ =>
      ({ s.setStream id { stream with
          operation := { storage := some s.emplaced, operations := some operations, active := true } }
        with emplaced := s.emplaced + 1 },
        .ok { slot := some id })

/-- Whether a call through the operations of the slot finds them and a constructed awaitable. -/
def usable (s : State T) (id : StreamId) : Bool :=
  match s.streams id with
  | none => false
  | some stream => stream.operation.operations.isSome && stream.operation.storage.isSome

/-- A call of the wrapped awaitable through the operations of the slot. -/
def useSlot (s : State T) (id : StreamId) : State T :=
  if s.usable id then s else s.fault

/-- `erased_awaitable_slot::reset`. -/
def resetSlot (s : State T) (id : StreamId) : State T :=
  match s.streams id with
  | none => s.fault
  | some stream =>
    match stream.operation.operations, stream.operation.storage with
    | some _, some awaitable =>
      { s.setStream id { stream with
          operation := { storage := none, operations := none, active := false } }
        with resets := s.resets ++ [awaitable] }
    | _, _ => s.fault

/-! ## The erased awaitable -/

def abandonUnstarted (s : State T) (a : AwaitableId) (awaitable : Awaitable) : State T :=
  let s := match awaitable.slot with
    | some id => if awaitable.started then s else s.resetSlot id
    | none => s
  s.setAwaitable a { awaitable with slot := none }

def destroyAwaitable (s : State T) (a : AwaitableId) (awaitable : Awaitable) :
    State T × Outcome E H :=
  if awaitable.slot.isSome ∧ awaitable.started then
    ({ s with terminated := true }, .terminated)
  else
    ((s.abandonUnstarted a awaitable).removeAwaitable a, .done)

def moveAwaitable (s : State T) (source target : AwaitableId) (awaitable : Awaitable) : State T :=
  (s.setAwaitable source { awaitable with slot := none }).setAwaitable target awaitable

/-- The exception path of the await functions: the slot is left and reset. -/
def release (s : State T) (a : AwaitableId) (awaitable : Awaitable) (id : StreamId) : State T :=
  (s.setAwaitable a { awaitable with slot := none }).resetSlot id

def awaitReady (s : State T) (a : AwaitableId) (awaitable : Awaitable) (answer : Except E Bool) :
    State T × Outcome E H :=
  match awaitable.slot with
  | none => (s, .ready true)
  | some id =>
    let awaitable := { awaitable with started := true }
    let s := (s.setAwaitable a awaitable).useSlot id
    match answer with
    | .ok ready => (s, .ready ready)
    | .error error => (s.release a awaitable id, .threw (.wrapped error))

/-- `await_suspend_model`: what the erased call returns for the answer of the wrapped one. -/
def suspendModel (noop continuation : H) : Suspend H → H
  | .void => noop
  | .bool suspended => if suspended then noop else continuation
  | .handle next => next

def awaitSuspend (s : State T) (a : AwaitableId) (awaitable : Awaitable) (noop continuation : H)
    (answer : Except E (Suspend H)) : State T × Outcome E H :=
  match awaitable.slot with
  | none => (s, .suspended continuation)
  | some id =>
    let awaitable := { awaitable with started := true }
    let s := (s.setAwaitable a awaitable).useSlot id
    match answer with
    | .ok suspend => (s, .suspended (suspendModel noop continuation suspend))
    | .error error => (s.release a awaitable id, .threw (.wrapped error))

def awaitResume (s : State T) (a : AwaitableId) (awaitable : Awaitable)
    (answer : Except E (IoResult ℕ)) : State T × Outcome E H :=
  match awaitable.slot with
  | none => (s, .resumed awaitable.immediateResult)
  | some id =>
    let s := (s.setAwaitable a { awaitable with slot := none }).useSlot id
    match answer with
    | .ok result => (s.resetSlot id, .resumed result)
    | .error error => (s.resetSlot id, .threw (.wrapped error))

/-! ## The stream -/

/-- The constructor from a stream. Where allocation or construction throws, the storage is given
back and there is no stream. -/
def construct (s : State T) (id : StreamId) (operations : StreamOperations T) (memory : ℕ)
    (answer : Except E Unit) : State T × Outcome E H :=
  match answer with
  | .error error => (s, .threw (.wrapped error))
  | .ok _ =>
    ({ s.setStream id
        { object := some { id := s.objects, memory := memory }, operations := some operations,
          memory := memory }
      with objects := s.objects + 1 }, .done)

/-- `reset_object`. -/
def resetObject (s : State T) (id : StreamId) (stream : Stream T) : State T :=
  match stream.operations with
  | none => s
  | some _ =>
    match stream.object with
    | none => s.fault
    | some object =>
      { s.setStream id { stream with object := none, operations := none }
        with freed := s.freed ++ [(object, stream.memory)] }

/-- `take_from`. Only the slot of the target stays its own. -/
def takeFrom (s : State T) (target : StreamId) (slot : Slot T) (source : StreamId) (other : Stream T) :
    State T :=
  (s.setStream target { other with operation := slot }).setStream source
    { other with object := none, operations := none }

def moveConstruct (s : State T) (target source : StreamId) (other : Stream T) : State T × Outcome E H :=
  if other.operation.active then
    (s, .threw (.logicError "cannot move an async read stream with an active operation"))
  else
    (s.takeFrom target {} source other, .done)

/-- What `require_inactive` throws. -/
def activeError : Exception E := .logicError "async read stream has an active operation"

def moveAssign (s : State T) (target source : StreamId) (stream other : Stream T) :
    State T × Outcome E H :=
  if target ≠ source then
    if stream.operation.active then
      (s, .threw activeError)
    else if other.operation.active then
      (s, .threw activeError)
    else
      ((s.resetObject target stream).takeFrom target stream.operation source other, .done)
  else
    (s, .done)

def resetStream (s : State T) (id : StreamId) (stream : Stream T) : State T × Outcome E H :=
  if stream.operation.active then
    (s, .threw activeError)
  else
    (s.resetObject id stream, .done)

def destroyStream (s : State T) (id : StreamId) (stream : Stream T) : State T × Outcome E H :=
  if stream.operation.active then
    ({ s with terminated := true }, .terminated)
  else
    ((s.resetObject id stream).removeStream id, .done)

/-- `read_some`, with the erased awaitable it returns in `a`. -/
def readSome (s : State T) (id : StreamId) (stream : Stream T) (a : AwaitableId)
    (factory : Except E Unit) : State T × Outcome E H :=
  match stream.operations with
  | none => (s.setAwaitable a { immediateResult := .failure badAddress 0 }, .done)
  | some operations =>
    match s.emplace id stream operations.read factory with
    | (t, .ok awaitable) => (t.setAwaitable a awaitable, .done)
    | (t, .error error) => (t, .threw (.wrapped error))

end State

/-! ## Calls -/

/-- A call, with what the wrapped stream answers during it. -/
inductive Call (T E H : Type) where
  /-- The default constructor. -/
  | default (id : StreamId) (memory : ℕ)
  | construct (id : StreamId) (operations : StreamOperations T) (memory : ℕ) (answer : Except E Unit)
  | moveConstruct (target source : StreamId)
  | moveAssign (target source : StreamId)
  | resetStream (id : StreamId)
  | destroyStream (id : StreamId)
  | readSome (id : StreamId) (a : AwaitableId) (factory : Except E Unit)
  | moveAwaitable (source target : AwaitableId)
  | destroyAwaitable (a : AwaitableId)
  | awaitReady (a : AwaitableId) (answer : Except E Bool)
  | awaitSuspend (a : AwaitableId) (noop continuation : H) (answer : Except E (Suspend H))
  | awaitResume (a : AwaitableId) (answer : Except E (IoResult ℕ))

/-- The state after a call and how the call ends. -/
def State.call (s : State T) : Call T E H → Option (State T × Outcome E H)
  | .default id memory =>
    if (s.streams id).isNone then some (s.setStream id { memory := memory }, .done) else none
  | .construct id operations memory answer =>
    if (s.streams id).isNone then some (s.construct id operations memory answer) else none
  | .moveConstruct target source =>
    if (s.streams target).isNone then (s.streams source).map fun other => s.moveConstruct target source other
    else none
  | .moveAssign target source =>
    (s.streams target).bind fun stream =>
      (s.streams source).map fun other => s.moveAssign target source stream other
  | .resetStream id => (s.streams id).map fun stream => s.resetStream id stream
  | .destroyStream id => (s.streams id).map fun stream => s.destroyStream id stream
  | .readSome id a factory =>
    if (s.awaitables a).isNone then (s.streams id).map fun stream => s.readSome id stream a factory
    else none
  | .moveAwaitable source target =>
    if (s.awaitables target).isNone then
      (s.awaitables source).map fun awaitable => (s.moveAwaitable source target awaitable, .done)
    else none
  | .destroyAwaitable a => (s.awaitables a).map fun awaitable => s.destroyAwaitable a awaitable
  | .awaitReady a answer => (s.awaitables a).map fun awaitable => s.awaitReady a awaitable answer
  | .awaitSuspend a noop continuation answer =>
    (s.awaitables a).map fun awaitable => s.awaitSuspend a awaitable noop continuation answer
  | .awaitResume a answer => (s.awaitables a).map fun awaitable => s.awaitResume a awaitable answer

/-- Nothing happens after `std::terminate`. -/
def step (s : State T) (call : Call T E H) : Option (State T) :=
  if s.terminated then none else (s.call call).map Prod.fst

def IsInitial (s : State T) : Prop := s = {}

end CCForge.AsyncStream
