import Mathlib.Data.Int.Notation
import Mathlib.Data.List.Basic
import Mathlib.Data.Option.Basic

/-!
# Values, callables and completion signatures

The values senders send, with the types the completion signatures name. A callable
carries what the traits say about it: the type of its result and whether it may
throw, for each list of argument types, with the proof that its calls keep to that.
-/

namespace CCForge.Senders

variable {α : Type}

abbrev LoopId := ℕ

/-- `run_loop::scheduler`, `inline_scheduler` and the scheduler that `affine` makes. -/
inductive Scheduler where
  | inline
  | loop (loop : LoopId)
  | unstoppable (scheduler : Scheduler)
  deriving DecidableEq, Repr

/-- `any source` is an `any_stop_token` around the token of a source, or an empty one. -/
inductive StopToken where
  | never
  | inplace (source : ℕ)
  | any (source : Option ℕ)
  deriving DecidableEq, Repr

/-- The types of the values, `object` for the program's own ones. -/
inductive CppType where
  | object (id : ℕ)
  | exceptionPtr
  | optional (value : CppType)
  | tuple (elements : List CppType)
  | variant (alternatives : List CppType)
  | loopScheduler
  | inlineScheduler
  | unstoppableScheduler (scheduler : CppType)
  | neverStopToken
  | inplaceStopToken
  | anyStopToken
  deriving Repr

mutual
/-- `std::is_same_v`. -/
def CppType.isSame : CppType → CppType → Bool
  | .object i, .object j => i == j
  | .exceptionPtr, .exceptionPtr => true
  | .optional t, .optional u => t.isSame u
  | .tuple ts, .tuple us => allSame ts us
  | .variant ts, .variant us => allSame ts us
  | .loopScheduler, .loopScheduler => true
  | .inlineScheduler, .inlineScheduler => true
  | .unstoppableScheduler t, .unstoppableScheduler u => t.isSame u
  | .neverStopToken, .neverStopToken => true
  | .inplaceStopToken, .inplaceStopToken => true
  | .anyStopToken, .anyStopToken => true
  | _, _ => false

def allSame : List CppType → List CppType → Bool
  | [], [] => true
  | t :: ts, u :: us => t.isSame u && allSame ts us
  | _, _ => false
end

mutual
theorem CppType.isSame_iff : ∀ t u : CppType, t.isSame u = true ↔ t = u
  | .object i, u => by cases u <;> simp [CppType.isSame]
  | .exceptionPtr, u => by cases u <;> simp [CppType.isSame]
  | .optional t, u => by
    cases u with
    | optional u => simpa [CppType.isSame] using CppType.isSame_iff t u
    | _ => simp [CppType.isSame]
  | .tuple ts, u => by
    cases u with
    | tuple us => simpa [CppType.isSame] using allSame_iff ts us
    | _ => simp [CppType.isSame]
  | .variant ts, u => by
    cases u with
    | variant us => simpa [CppType.isSame] using allSame_iff ts us
    | _ => simp [CppType.isSame]
  | .loopScheduler, u => by cases u <;> simp [CppType.isSame]
  | .inlineScheduler, u => by cases u <;> simp [CppType.isSame]
  | .unstoppableScheduler t, u => by
    cases u with
    | unstoppableScheduler u => simpa [CppType.isSame] using CppType.isSame_iff t u
    | _ => simp [CppType.isSame]
  | .neverStopToken, u => by cases u <;> simp [CppType.isSame]
  | .inplaceStopToken, u => by cases u <;> simp [CppType.isSame]
  | .anyStopToken, u => by cases u <;> simp [CppType.isSame]

theorem allSame_iff : ∀ ts us : List CppType, allSame ts us = true ↔ ts = us
  | [], us => by cases us <;> simp [allSame]
  | t :: ts, us => by
    cases us with
    | nil => simp [allSame]
    | cons u us =>
      simp only [allSame, Bool.and_eq_true, List.cons.injEq]
      exact and_congr (CppType.isSame_iff t u) (allSame_iff ts us)
end

instance : DecidableEq CppType := fun t u => decidable_of_iff _ (CppType.isSame_iff t u)

def Scheduler.type : Scheduler → CppType
  | .inline => .inlineScheduler
  | .loop _ => .loopScheduler
  | .unstoppable s => .unstoppableScheduler s.type

def StopToken.type : StopToken → CppType
  | .never => .neverStopToken
  | .inplace _ => .inplaceStopToken
  | .any _ => .anyStopToken

/-- `exceptionPtr e` is what `current_exception` gives for the thrown `e`. -/
inductive Value (α : Type) where
  | object (id : ℕ) (x : α)
  | exceptionPtr (thrown : Value α)
  | nullopt (value : CppType)
  | engaged (value : Value α)
  | tuple (elements : List (Value α))
  | variant (alternatives : List CppType) (value : Value α)
  | scheduler (scheduler : Scheduler)
  | stopToken (token : StopToken)

mutual
def Value.type : Value α → CppType
  | .object id _ => .object id
  | .exceptionPtr _ => .exceptionPtr
  | .nullopt t => .optional t
  | .engaged v => .optional v.type
  | .tuple vs => .tuple (types vs)
  | .variant alternatives _ => .variant alternatives
  | .scheduler s => s.type
  | .stopToken t => t.type

def types : List (Value α) → List CppType
  | [] => []
  | v :: vs => v.type :: types vs
end

@[simp] theorem types_nil : types ([] : List (Value α)) = [] := by
  simp [types]

@[simp] theorem types_cons (v : Value α) (vs : List (Value α)) :
    types (v :: vs) = v.type :: types vs := by
  simp [types]

@[simp] theorem type_exceptionPtr (e : Value α) : (Value.exceptionPtr e).type = .exceptionPtr := by
  simp [Value.type]

theorem types_eq_nil {vs : List (Value α)} (h : types vs = []) : vs = [] := by
  cases vs with
  | nil => rfl
  | cons v vs => simp at h

/-- A completion signature. -/
inductive Sig where
  | setValue (values : List CppType)
  | setError (error : CppType)
  | setStopped
  deriving DecidableEq, Repr

inductive Completion (α : Type) where
  | value (values : List (Value α))
  | error (error : Value α)
  | stopped

def Completion.sig : Completion α → Sig
  | .value vs => .setValue (types vs)
  | .error e => .setError e.type
  | .stopped => .setStopped

/-- `set_error(current_exception())`. -/
def Completion.thrown (e : Value α) : Completion α := .error (.exceptionPtr e)

@[simp] theorem Completion.sig_thrown (e : Value α) :
    (Completion.thrown e).sig = .setError .exceptionPtr := by
  simp [Completion.thrown, Completion.sig]

/-- A callable. A result `none` is `void`. -/
structure Fn (α : Type) where
  isInvocable : List CppType → Bool
  isNothrowInvocable : List CppType → Bool
  result : List CppType → Option CppType
  invoke : List (Value α) → Except (Value α) (Option (Value α))
  invoke_type : ∀ vs r, invoke vs = .ok r → r.map Value.type = result (types vs)
  invoke_nothrow : ∀ vs, isNothrowInvocable (types vs) = true → ∃ r, invoke vs = .ok r

/-- The callable of a bulk operation: the index or range, and the values by reference. -/
structure LoopFn (ι α : Type) where
  isNothrowInvocable : List CppType → Bool
  invoke : ι → List (Value α) → Except (Value α) (List (Value α))
  invoke_type : ∀ i vs ws, invoke i vs = .ok ws → types ws = types vs
  invoke_nothrow : ∀ i vs, isNothrowInvocable (types vs) = true → ∃ ws, invoke i vs = .ok ws

/-- The construction of the decayed copies that operations store. It may throw. -/
class Decay (α : Type) where
  isNothrowConstructible : CppType → Bool
  construct : Value α → Option (Value α)
  construct_nothrow : ∀ v, isNothrowConstructible v.type = true → construct v = none

/-- Plain numbers are copied without throwing. -/
instance : Decay ℕ where
  isNothrowConstructible _ := true
  construct _ := none
  construct_nothrow _ _ := rfl

variable [Decay α]

/-- Constructs a tuple, with what its first throwing element throws. -/
def constructAll (vs : List (Value α)) : Option (Value α) := vs.findSome? Decay.construct

variable (α) in
def isNothrowConstructibleAll (ts : List CppType) : Bool :=
  ts.all (Decay.isNothrowConstructible α)

theorem constructAll_nothrow {vs : List (Value α)}
    (h : isNothrowConstructibleAll α (types vs) = true) : constructAll vs = none := by
  induction vs with
  | nil => rfl
  | cons v vs ih =>
    simp only [isNothrowConstructibleAll, types_cons, List.all_cons, Bool.and_eq_true] at h
    simp only [constructAll, List.findSome?_cons, Decay.construct_nothrow v h.1]
    exact ih h.2

end CCForge.Senders
