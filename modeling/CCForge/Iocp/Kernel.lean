import Mathlib.Data.Nat.Notation
import Mathlib.Logic.Function.Basic
import Mathlib.Algebra.Group.Nat.Defs
import Mathlib.Algebra.GroupWithZero.Nat

/-!
# The kernel below the completion port

What the operating system is relied on for. A handle names an open object or nothing, and its
value may be used again once it is closed. As the rules for a handle ask, its object is overlapped
and bound to no other port, so that an association is rejected as an invalid parameter only where
the object has one. For each overlapped call that reports that it is pending, for a read that
reports more data, and for a success on an object that does not skip them, exactly one packet is
posted, at any later time and in any order.
-/

namespace CCForge.Iocp

abbrev Handle := ℕ

/-- An operation, which is also its record and the address of its `OVERLAPPED`. -/
abbrev OpId := ℕ

abbrev ErrorCode := ℕ

/-- `INVALID_HANDLE_VALUE`. -/
def invalidHandleValue : Handle := 2 ^ 64 - 1

def errorInvalidHandle : ErrorCode := 6
def errorHandleEof : ErrorCode := 38
def errorInvalidParameter : ErrorCode := 87
def errorBrokenPipe : ErrorCode := 109
def errorPipeNotConnected : ErrorCode := 233
def errorMoreData : ErrorCode := 234
def errorOperationAborted : ErrorCode := 995
def errorIoPending : ErrorCode := 997

/-- `__operation_kind`. -/
inductive OperationKind where
  | read
  | write
  deriving DecidableEq, Repr

/-- An open file, pipe or socket. `skips` is `FILE_SKIP_COMPLETION_PORT_ON_SUCCESS`. -/
structure Object where
  associated : Bool := false
  skips : Bool := false
  deriving DecidableEq, Repr

/-- An overlapped call whose packet is still to be posted. -/
structure IoCall where
  handle : Handle
  kind : OperationKind
  bytes : ℕ
  cancelled : Bool := false
  deriving DecidableEq, Repr

/-- A packet of the port. A packet without `OVERLAPPED` only wakes the worker. -/
structure Packet where
  overlapped : Option OpId := none
  ok : Bool := true
  bytes : ℕ := 0
  error : ErrorCode := 0
  deriving DecidableEq, Repr

/-- What `ReadFile` or `WriteFile` reports, with the byte count that `GetOverlappedResult` gives
after a synchronous success. -/
inductive Issued where
  | succeeded (bytes : ℕ)
  | failed (error : ErrorCode)
  deriving DecidableEq, Repr

/-- `packets` counts the packets that were ever due for an operation. -/
structure Kernel where
  objects : Handle → Option Object := fun _ => none
  calls : OpId → Option IoCall := fun _ => none
  port : List Packet := []
  packets : OpId → ℕ := fun _ => 0

namespace Kernel

def setObject (k : Kernel) (handle : Handle) (object : Option Object) : Kernel :=
  { k with objects := Function.update k.objects handle object }

/-- Whether the handle names an object that is associated with the port. -/
def isAssociated (k : Kernel) (handle : Handle) : Bool :=
  (k.objects handle).any Object.associated

def skips (k : Kernel) (handle : Handle) : Bool :=
  (k.objects handle).any Object.skips

/-- `CreateIoCompletionPort` for a handle and the port of the context, with the error it reports. -/
def associate (k : Kernel) (handle : Handle) : Option ErrorCode → Option Kernel
  | none =>
    match k.objects handle with
    | none => none
    | some object =>
      if object.associated then none
      else some (k.setObject handle (some { object with associated := true }))
  | some error =>
    if error = errorInvalidParameter ∧ k.isAssociated handle = false then none else some k

/-- `SetFileCompletionNotificationModes`, with whether it succeeds. -/
def setSkips (k : Kernel) (handle : Handle) (succeeds : Bool) : Kernel :=
  match k.objects handle with
  | none => k
  | some object =>
    if succeeds then k.setObject handle (some { object with skips := true }) else k

/-- Whether a packet is due for a call that reported `issued`. -/
def packetDue (k : Kernel) (handle : Handle) (kind : OperationKind) : Issued → Bool
  | .succeeded _ => !k.skips handle
  | .failed error => error = errorIoPending ∨ (kind = .read ∧ error = errorMoreData)

/-- `ReadFile` or `WriteFile`. -/
def issue (k : Kernel) (op : OpId) (call : IoCall) (issued : Issued) : Kernel :=
  if k.packetDue call.handle call.kind issued then
    { k with
      calls := Function.update k.calls op (some call)
      packets := Function.update k.packets op (k.packets op + 1) }
  else k

/-- `CancelIoEx` for the operations with `p`. -/
def cancelIo (k : Kernel) (p : OpId → Bool) : Kernel :=
  { k with
    calls := fun op => (k.calls op).map fun call => { call with cancelled := call.cancelled || p op } }

/-- The packet of a call is posted. -/
def post (k : Kernel) (op : OpId) (ok : Bool) (bytes : ℕ) (error : ErrorCode) : Option Kernel :=
  if (k.calls op).isSome then
    some { k with
      calls := Function.update k.calls op none
      port := k.port ++ [{ overlapped := some op, ok := ok, bytes := bytes, error := error }] }
  else none

/-- `PostQueuedCompletionStatus` without an `OVERLAPPED`, with whether it succeeds. -/
def postWake (k : Kernel) (succeeds : Bool) : Kernel :=
  if succeeds then { k with port := k.port ++ [{}] } else k

/-- The packets of an operation that are still to be posted or to be taken from the port. -/
def outstanding (k : Kernel) (op : OpId) : ℕ :=
  (if (k.calls op).isSome then 1 else 0) +
    k.port.countP fun packet => packet.overlapped = some op

/-! ## What a call does -/

variable {k k' : Kernel} {handle other : Handle} {op : OpId} {object : Option Object}

/-- The objects decide what a handle is. -/
theorem isAssociated_congr (h : k'.objects handle = k.objects handle) :
    k'.isAssociated handle = k.isAssociated handle := by
  rw [isAssociated, isAssociated, h]

theorem skips_congr (h : k'.objects handle = k.objects handle) : k'.skips handle = k.skips handle := by
  rw [skips, skips, h]

theorem associate_cases {reported : Option ErrorCode} (h : k.associate handle reported = some k') :
    (reported = none ∧ ∃ object, k.objects handle = some object ∧ object.associated = false ∧
      k' = k.setObject handle (some { object with associated := true })) ∨
    (k' = k ∧ ∃ error, reported = some error ∧
      (error = errorInvalidParameter → k.isAssociated handle = true)) := by
  cases reported with
  | none =>
    simp only [associate] at h
    split at h
    · cases h
    · next object hobject =>
      split at h
      · cases h
      · next hnot =>
        cases h
        exact .inl ⟨rfl, object, hobject, by simpa using hnot, rfl⟩
  | some error =>
    simp only [associate] at h
    split at h
    · cases h
    · next hnot =>
      cases h
      refine .inr ⟨rfl, error, rfl, fun he => ?_⟩
      simpa [he] using hnot

/-- The call changes objects only. -/
theorem setSkips_eq (k : Kernel) (handle : Handle) (succeeds : Bool) :
    { k with objects := (k.setSkips handle succeeds).objects } = k.setSkips handle succeeds := by
  unfold setSkips
  split
  · rfl
  · split <;> rfl

/-- After the call for an open object, the object skips packets if it did or if the call succeeded. -/
theorem objects_setSkips {o : Object} (ho : k.objects handle = some o) (succeeds : Bool) :
    (k.setSkips handle succeeds).objects =
      Function.update k.objects handle (some { o with skips := o.skips || succeeds }) := by
  unfold setSkips
  rw [ho]
  cases succeeds with
  | true => simp [setObject]
  | false => simp [← ho]

/-- A call without a packet leaves nothing behind. -/
theorem issue_of_not_due {call : IoCall} {issued : Issued}
    (h : k.packetDue call.handle call.kind issued = false) : k.issue op call issued = k := by
  simp [issue, h]

theorem issue_of_due (op : OpId) (call : IoCall) {issued : Issued}
    (h : k.packetDue call.handle call.kind issued = true) : k.issue op call issued =
      { k with
        calls := Function.update k.calls op (some call)
        packets := Function.update k.packets op (k.packets op + 1) } := by
  simp [issue, h]

/-- A packet is to come for a call that had none. -/
theorem outstanding_call {call : IoCall} (hcalls : k'.calls = Function.update k.calls op (some call))
    (hport : k'.port = k.port) (hop : k.calls op = none) (other : OpId) :
    k'.outstanding other = k.outstanding other + if other = op then 1 else 0 := by
  simp only [outstanding, hcalls, hport]
  by_cases he : other = op
  · subst he
    simp [hop, Nat.add_comm]
  · simp [he]

@[simp] theorem outstanding_cancelIo (k : Kernel) (p : OpId → Bool) (op : OpId) :
    (k.cancelIo p).outstanding op = k.outstanding op := by
  simp [cancelIo, outstanding]

@[simp] theorem outstanding_postWake (k : Kernel) (succeeds : Bool) (op : OpId) :
    (k.postWake succeeds).outstanding op = k.outstanding op := by
  cases succeeds <;> simp [postWake, outstanding]

/-- The packet of a call goes from the calls to the port. -/
theorem outstanding_post {ok : Bool} {bytes : ℕ} {error : ErrorCode}
    (h : k.post op ok bytes error = some k') (other : OpId) :
    k'.outstanding other = k.outstanding other := by
  simp only [post] at h
  split at h
  · next hsome =>
    cases h
    simp only [outstanding, List.countP_append, List.countP_singleton, decide_eq_true_eq, Option.some.injEq]
    by_cases he : other = op
    · subst he
      simp [hsome, Nat.add_comm]
    · simp [he, Ne.symm he]
  · cases h

theorem post_spec {ok : Bool} {bytes : ℕ} {error : ErrorCode} (h : k.post op ok bytes error = some k') :
    k'.objects = k.objects ∧ k'.packets = k.packets := by
  simp only [post] at h
  split at h
  · cases h
    exact ⟨rfl, rfl⟩
  · cases h

end Kernel

end CCForge.Iocp
