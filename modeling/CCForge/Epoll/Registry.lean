import CCForge.Lib.Run
import Mathlib.Data.Finset.Basic
import Mathlib.Data.Int.Notation

/-!
# The epoll readiness registry

The context keeps the waiters of each file descriptor in a table, and tells the kernel which
events of the descriptor it is interested in. Each function here is the part of a member
function of `__state` that runs under the mutex. It returns the records that are taken out
for completion, in order.

The kernel has an interest table of its own. What a call of `epoll_ctl` does beyond the
documented `EEXIST` and `ENOENT` is an argument: the call may fail with any other error.
-/

namespace CCForge.Epoll

inductive Readiness where
  | read
  | write
  deriving DecidableEq, Repr

/-- What a record is known by: its identity, `fd` and `kind`. -/
structure Record where
  id : ℕ
  fd : ℤ
  kind : Readiness
  deriving DecidableEq, Repr

/-- A `std::system_error`. -/
structure SystemError where
  code : ℕ
  what : String
  deriving DecidableEq, Repr

/-- `__completion_kind`, with the error of an error completion. -/
inductive Completion where
  | value
  | error (error : SystemError)
  | stopped
  deriving DecidableEq, Repr

/-- An entry of `__actions`. -/
abbrev Action := Record × Completion

/-! ## The kernel -/

inductive Event where
  | pollIn
  | pollOut
  | pollErr
  | pollHup
  | pollRdhup
  deriving DecidableEq, Repr

abbrev Mask := Finset Event

/-- The descriptors that the kernel watches, with the events. -/
abbrev Kernel := ℤ → Option Mask

inductive CtlOp where
  | add
  | mod
  | del
  deriving DecidableEq, Repr

def eNOENT : ℕ := 2
def eBADF : ℕ := 9
def eEXIST : ℕ := 17
def eINPROGRESS : ℕ := 115

/-- The error that a call of `epoll_ctl` fails with for another reason than the presence of the
descriptor. -/
abbrev Fail := Option ℕ

/-- `epoll_ctl`, with the error number where it fails. -/
def epollCtl (kernel : Kernel) (op : CtlOp) (fd : ℤ) (mask : Mask) (fail : Fail) :
    Kernel × Option ℕ :=
  match fail with
  | some error => (kernel, some error)
  | none =>
    match op, kernel fd with
    | .add, some _ => (kernel, some eEXIST)
    | .add, none => (Function.update kernel fd (some mask), none)
    | .mod, none => (kernel, some eNOENT)
    | .mod, some _ => (Function.update kernel fd (some mask), none)
    | .del, none => (kernel, some eNOENT)
    | .del, some _ => (Function.update kernel fd none, none)

/-! ## The waiters of a descriptor -/

/-- `__fd_waiters`. -/
structure FdWaiters where
  read : Option Record := none
  write : Option Record := none
  registered : Bool := false
  deriving DecidableEq, Repr

namespace FdWaiters

def empty (w : FdWaiters) : Bool := w.read.isNone && w.write.isNone

def events (w : FdWaiters) : Mask :=
  {.pollErr, .pollHup} ∪ (if w.read.isSome then {.pollIn, .pollRdhup} else ∅) ∪
    (if w.write.isSome then {.pollOut} else ∅)

def slot (w : FdWaiters) : Readiness → Option Record
  | .read => w.read
  | .write => w.write

def setSlot (w : FdWaiters) (kind : Readiness) (record : Option Record) : FdWaiters :=
  match kind with
  | .read => { w with read := record }
  | .write => { w with write := record }

/-- How many slots are occupied. -/
def occupied (w : FdWaiters) : ℕ := w.read.toList.length + w.write.toList.length

end FdWaiters

/-- The result of `update_interest_locked`, with the error number where it fails. -/
structure Updated where
  kernel : Kernel
  waiters : FdWaiters
  error : Option ℕ

/-- The errors of the `epoll_ctl` calls of one `update_interest_locked`: of the first call, and of
the recovery. -/
structure Fails where
  first : Fail := none
  recovery : Fail := none
  deriving DecidableEq, Repr

/-- The call for the waiters that are there, with the recovery where there is one. -/
def watch (kernel : Kernel) (fd : ℤ) (w : FdWaiters) (fails : Fails) : Updated :=
  let op := if w.registered then CtlOp.mod else .add
  match epollCtl kernel op fd w.events fails.first with
  | (kernel, none) => { kernel := kernel, waiters := { w with registered := true }, error := none }
  | (kernel, some error) =>
    let recovery :=
      if op = .add ∧ error = eEXIST then some CtlOp.mod
      else if op = .mod ∧ error = eNOENT then some .add
      else none
    match recovery with
    | none => { kernel := kernel, waiters := w, error := some error }
    | some op =>
      match epollCtl kernel op fd w.events fails.recovery with
      | (kernel, none) =>
        { kernel := kernel, waiters := { w with registered := true }, error := none }
      | (kernel, some error) => { kernel := kernel, waiters := w, error := some error }

/-- The call for a descriptor without waiters. -/
def unwatch (kernel : Kernel) (fd : ℤ) (w : FdWaiters) (fails : Fails) : Updated :=
  if w.registered then
    match epollCtl kernel .del fd ∅ fails.first with
    | (kernel, none) => { kernel := kernel, waiters := { w with registered := false }, error := none }
    | (kernel, some error) =>
      if error ≠ eNOENT ∧ error ≠ eBADF then { kernel := kernel, waiters := w, error := some error }
      else { kernel := kernel, waiters := { w with registered := false }, error := none }
  else { kernel := kernel, waiters := w, error := none }

/-- `update_interest_locked`. -/
def updateInterest (kernel : Kernel) (fd : ℤ) (w : FdWaiters) (fails : Fails) : Updated :=
  if w.empty then unwatch kernel fd w fails else watch kernel fd w fails

/-- The fields of `__state` under the mutex, and the kernel's interest table. `keys` is the order
in which a walk over the table visits it. -/
structure Registry where
  wake : ℤ
  fdWaiters : ℤ → Option FdWaiters := fun _ => none
  keys : List ℤ := []
  closed : Bool := false
  stopped : Bool := false
  pending : ℕ := 0
  activeDeliveries : ℕ := 0
  kernel : Kernel

namespace Registry

def put (g : Registry) (fd : ℤ) (w : FdWaiters) : Registry :=
  { g with fdWaiters := Function.update g.fdWaiters fd (some w) }

def erase (g : Registry) (fd : ℤ) : Registry :=
  { g with fdWaiters := Function.update g.fdWaiters fd none, keys := g.keys.erase fd }

/-- The entry is kept only while it has a waiter. -/
def putOrErase (g : Registry) (fd : ℤ) (w : FdWaiters) : Registry :=
  if w.empty then g.erase fd else g.put fd w

/-- An update of the interest, and what the section leaves of the entry. -/
def settle (g : Registry) (fd : ℤ) (w : FdWaiters) (fails : Fails) : Registry :=
  let updated := updateInterest g.kernel fd w fails
  { g with kernel := updated.kernel }.putOrErase fd updated.waiters

def tryEmplace (g : Registry) (fd : ℤ) : Registry × FdWaiters :=
  match g.fdWaiters fd with
  | some w => (g, w)
  | none =>
    ({ g with fdWaiters := Function.update g.fdWaiters fd (some {}), keys := fd :: g.keys }, {})

/-- `reserve_deliveries_locked`. -/
def reserve (g : Registry) (actions : List Action) : Registry :=
  { g with activeDeliveries := g.activeDeliveries + actions.length }

def invalidFd : SystemError := { code := eBADF, what := "forge::io readiness invalid fd" }

def duplicateWaiter : SystemError :=
  { code := eINPROGRESS, what := "forge::io duplicate readiness waiter" }

def addFailed (error : ℕ) : SystemError := { code := error, what := "epoll_ctl readiness add" }

/-- The section of `start` up to `reserve_deliveries_locked`, and whether the record became
pending. -/
def startLocked (g : Registry) (record : Record) (fails again : Fails) : Registry × List Action × Bool :=
  if g.closed ∨ g.stopped then (g, [(record, .stopped)], false)
  else if record.fd < 0 then (g, [(record, .error invalidFd)], false)
  else
    let (g, w) := g.tryEmplace record.fd
    match w.slot record.kind with
    | some _ => (g, [(record, .error duplicateWaiter)], false)
    | none =>
      let g := { g with pending := g.pending + 1 }
      let added := updateInterest g.kernel record.fd (w.setSlot record.kind (some record)) fails
      let g := { g with kernel := added.kernel }
      match added.error with
      | none => (g.put record.fd added.waiters, [], true)
      | some error =>
        -- `record_from_slot`.
        let g := { g with pending := g.pending - 1 }
        (g.settle record.fd (added.waiters.setSlot record.kind none) again,
          [(record, .error (addFailed error))], false)

/-- The section of `start`. -/
def start (g : Registry) (record : Record) (fails again : Fails) : Registry × List Action × Bool :=
  let (g, actions, becamePending) := g.startLocked record fails again
  (g.reserve actions, actions, becamePending)

/-- `take_one_locked`: what it takes from a slot. -/
def takeOne (slot : Option Record) (completion : Completion) : List Action :=
  slot.toList.map fun record => (record, completion)

/-- `take_all_locked`. -/
def takeAll (g : Registry) (fd : ℤ) (completion : Completion) (fails : Fails) :
    Registry × List Action :=
  match g.fdWaiters fd with
  | none => (g, [])
  | some w =>
    let actions := takeOne w.read completion ++ takeOne w.write completion
    let updated := updateInterest g.kernel fd { w with read := none, write := none } fails
    ({ g with pending := g.pending - actions.length, kernel := updated.kernel }.erase fd, actions)

/-- `take_ready_locked` for an event that `epoll_wait` returned. -/
def takeReady (g : Registry) (fd : ℤ) (mask : Mask) (fails : Fails) : Registry × List Action :=
  match g.fdWaiters fd with
  | none => (g, [])
  | some w =>
    let readReady := .pollIn ∈ mask ∨ .pollErr ∈ mask ∨ .pollHup ∈ mask ∨ .pollRdhup ∈ mask
    let writeReady := .pollOut ∈ mask ∨ .pollErr ∈ mask ∨ .pollHup ∈ mask
    let actions := (if readReady then takeOne w.read .value else []) ++
      (if writeReady then takeOne w.write .value else [])
    let w := if readReady then { w with read := none } else w
    let w := if writeReady then { w with write := none } else w
    ({ g with pending := g.pending - actions.length }.settle fd w fails, actions)

/-- The section of `extract_record`, and whether the record was resident. -/
def extract (g : Registry) (target : Record) (reserveDelivery : Bool) (fails : Fails) :
    Registry × Bool :=
  match g.fdWaiters target.fd with
  | none => (g, false)
  | some w =>
    if w.slot target.kind = some target then
      let g := { g with pending := g.pending - 1 }.settle target.fd (w.setSlot target.kind none) fails
      ({ g with activeDeliveries := g.activeDeliveries + if reserveDelivery then 1 else 0 }, true)
    else (g, false)

/-- Takes out all waiters of the descriptors, in their order. -/
def takeAllOf (completion : Completion) (fails : ℤ → Fails) :
    Registry → List ℤ → Registry × List Action
  | g, [] => (g, [])
  | g, fd :: fds =>
    let (g, actions) := g.takeAll fd completion (fails fd)
    let (g, rest) := takeAllOf completion fails g fds
    (g, actions ++ rest)

/-- The section of `cancel`. -/
def cancel (g : Registry) (fd : ℤ) (fails : Fails) : Registry × List Action :=
  let (g, actions) := g.takeAll fd .stopped fails
  (g.reserve actions, actions)

/-- The section of `close`. -/
def close (g : Registry) : Registry := { g with closed := true }

/-- The section of `request_stop`. -/
def requestStop (g : Registry) (fails : ℤ → Fails) : Registry × List Action :=
  let (g, actions) := takeAllOf .stopped fails { g with stopped := true } g.keys
  (g.reserve actions, actions)

/-- The section of `complete_all_with_error` after a failed `epoll_wait`. -/
def completeAllWithError (g : Registry) (error : ℕ) (fails : ℤ → Fails) : Registry × List Action :=
  let (g, actions) := takeAllOf (.error { code := error, what := "epoll_wait" }) fails
    { g with stopped := true } g.keys
  (g.reserve actions, actions)

/-- An event that `epoll_wait` returned, with the errors of the calls it leads to. -/
structure Polled where
  fd : ℤ
  mask : Mask
  fails : Fails := {}

/-- The loop over the events in `run`. -/
def takeEvents : Registry → List Polled → Registry × List Action
  | g, [] => (g, [])
  | g, event :: events =>
    let (g, actions) :=
      if event.fd = g.wake then (g, []) else g.takeReady event.fd event.mask event.fails
    let (g, rest) := takeEvents g events
    (g, actions ++ rest)

/-- The section of an iteration of `run`, and whether the poller exits. -/
def poll (g : Registry) (events : List Polled) : Registry × List Action × Bool :=
  let (g, actions) := g.takeEvents events
  let shouldExit := (g.closed || g.stopped) && g.pending == 0
  (g.reserve actions, actions, shouldExit)

/-- `finish_deliveries`. -/
def finishDeliveries (g : Registry) (count : ℕ) : Registry :=
  { g with activeDeliveries := g.activeDeliveries - count }

/-- A new registry. The kernel watches the eventfd. -/
def IsInitial (g : Registry) : Prop :=
  g = { wake := g.wake, kernel := Function.update (fun _ => none) g.wake (some {.pollIn}) }

/-- The record in the slot of a descriptor. -/
def resident (g : Registry) (fd : ℤ) (kind : Readiness) : Option Record :=
  (g.fdWaiters fd).bind fun w => w.slot kind

end Registry

end CCForge.Epoll
