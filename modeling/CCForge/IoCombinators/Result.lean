import Mathlib.Data.Int.Notation
import Mathlib.Data.List.Basic

/-!
# io_result

The result of an io operation has a status, an error code and values. A nonzero error
code makes the status an error, whatever was stored.
-/

namespace CCForge.IoCombinators

inductive IoStatus where
  | value
  | eof
  | error
  deriving DecidableEq, Repr

/-- `std::error_code`. The value zero is no error. -/
structure ErrorCode where
  value : ℤ := 0
  category : ℕ := 0
  deriving DecidableEq, Repr

def ErrorCode.isError (code : ErrorCode) : Bool := code.value != 0

structure IoResult (X : Type) where
  status_ : IoStatus
  error : ErrorCode
  values : X
  deriving DecidableEq, Repr

namespace IoResult

variable {X : Type}

def make (error : ErrorCode) (values : X) : IoResult X :=
  { status_ := if error.isError then .error else .value, error := error, values := values }

def success (values : X) : IoResult X := make {} values

def failure (error : ErrorCode) (values : X) : IoResult X :=
  { make error values with status_ := .error }

def endOfFile (values : X) : IoResult X :=
  { make {} values with status_ := .eof }

def status (r : IoResult X) : IoStatus := if r.error.isError then .error else r.status_

def eof (r : IoResult X) : Bool := r.status == .eof

@[simp] theorem status_success (values : X) : (success values).status = .value := rfl

@[simp] theorem status_failure (error : ErrorCode) (values : X) :
    (failure error values).status = .error := by
  unfold status failure
  split <;> rfl

@[simp] theorem status_endOfFile (values : X) : (endOfFile values).status = .eof := rfl

@[simp] theorem error_success (values : X) : (success values).error = {} := rfl

@[simp] theorem error_failure (error : ErrorCode) (values : X) :
    (failure error values).error = error := rfl

@[simp] theorem error_endOfFile (values : X) : (endOfFile values).error = {} := rfl

@[simp] theorem values_success (values : X) : (success values).values = values := rfl

@[simp] theorem values_failure (error : ErrorCode) (values : X) :
    (failure error values).values = values := rfl

@[simp] theorem values_endOfFile (values : X) : (endOfFile values).values = values := rfl

end IoResult

end CCForge.IoCombinators
