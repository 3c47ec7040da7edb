import CCForge.Lib.Run
import CCForge.Lib.Census

/-!
# The counting scopes

`simple_counting_scope` and `counting_scope` run the same code on their count, state
and list of joiners; `counting_scope` has a stop source besides. A step is one locked
section, the completion of one join by a thread that has left such a section, or
what a scheduler does with a join that was handed to it.

The count is a 64-bit machine integer. The fields after `scheduled` record the
history of a run; steps read them only so that an association is granted once and a
join is started once.
-/

namespace CCForge.CountingScope

abbrev AssociationId := ℕ
abbrev JoinId := ℕ

inductive Signal where
  | value
  | error
  | stopped
  deriving DecidableEq, Repr

inductive ScopeState where
  | unused
  | unusedAndClosed
  | open
  | openAndJoining
  | closed
  | closedAndJoining
  | joined
  deriving DecidableEq, Repr

namespace ScopeState

def afterClose : ScopeState → ScopeState
  | .unused => .unusedAndClosed
  | .open => .closed
  | .openAndJoining => .closedAndJoining
  | state => state

def afterAssociation (state : ScopeState) : ScopeState :=
  if state = .unused then .open else state

/-- `none` is the call of `std::terminate`. -/
def afterJoinStart : ScopeState → Option ScopeState
  | .open => some .openAndJoining
  | .openAndJoining => some .openAndJoining
  | .closed => some .closedAndJoining
  | .closedAndJoining => some .closedAndJoining
  | _ => none

def isJoining (state : ScopeState) : Bool :=
  state = .openAndJoining ∨ state = .closedAndJoining

def rejectsAssociation (state : ScopeState) : Bool :=
  state ≠ .unused ∧ state ≠ .open ∧ state ≠ .openAndJoining

end ScopeState

/-- The number of values of `std::size_t`. -/
def sizeModulus : ℕ := 2 ^ 64

def maxAssociations : ℕ := sizeModulus - 1

def fetchAdd (count : ℕ) : ℕ := (count + 1) % sizeModulus

def fetchSub (count : ℕ) : ℕ := (count + (sizeModulus - 1)) % sizeModulus

structure AssociationResult where
  state : ScopeState
  count : ℕ
  engaged : Bool
  deriving DecidableEq, Repr

def scopeTryAssociate (state : ScopeState) (count limit : ℕ) : AssociationResult :=
  if count ≥ limit ∨ state.rejectsAssociation then ⟨state, count, false⟩
  else ⟨state.afterAssociation, fetchAdd count, true⟩

/-- The data behind the mutex of a scope. -/
structure Shared where
  state : ScopeState := .unused
  count : ℕ := 0
  joiners : List JoinId := []
  deriving DecidableEq, Repr

namespace Shared

def close (s : Shared) : Shared := { s with state := s.state.afterClose }

/-- `true` says that the association that is returned is engaged. -/
def tryAssociate (s : Shared) : Shared × Bool :=
  let next := scopeTryAssociate s.state s.count maxAssociations
  if next.engaged then ({ s with state := next.state, count := fetchAdd s.count }, true)
  else (s, false)

/-- `true` says that the join completes at once, `none` that the program terminates. -/
def startJoin (s : Shared) (j : JoinId) : Option (Shared × Bool) :=
  if s.count = 0 then some ({ s with state := .joined }, true)
  else match s.state.afterJoinStart with
    | none => none
    | some state => some ({ s with state := state, joiners := j :: s.joiners }, false)

/-- Returns the joins that are ready to be completed without the lock. -/
def decrement (s : Shared) : Shared × List JoinId :=
  let t := { s with count := fetchSub s.count }
  if s.count = 1 ∧ s.state.isJoining then
    ({ t with state := .joined, joiners := [] }, s.joiners)
  else (t, [])

end Shared

inductive Kind where
  | simple
  | counting
  deriving DecidableEq, Repr

/-- How a thread completes a join: a join that started with nothing to wait for calls
its receiver, a registered one starts its schedule operation. -/
inductive Completion where
  | setValue (j : JoinId)
  | schedule (j : JoinId)
  deriving DecidableEq, Repr

def Completion.join : Completion → JoinId
  | .setValue j | .schedule j => j

structure State (n : ℕ) where
  kind : Kind
  shared : Shared := {}
  stopRequested : Bool := false
  terminated : Bool := false
  /-- The engaged associations that exist. -/
  live : List AssociationId := []
  /-- What each thread has still to complete, innermost call first. -/
  ready : Fin n → List Completion := fun _ => []
  /-- The joins whose schedule operation was started and has not completed. -/
  scheduled : List JoinId := []
  /-- The associations in the order in which they were granted. -/
  granted : List AssociationId := []
  closeCalled : Bool := false
  started : List JoinId := []
  /-- The completions of the receivers of joins, with the count at that moment. -/
  completed : List (JoinId × Signal × ℕ) := []

namespace State

variable {n : ℕ}

/-- Thread `t` leaves a locked section with joins to complete. -/
@[simp] def setReady (s : State n) (t : Fin n) (new : List Completion) : State n :=
  { s with ready := Function.update s.ready t (new ++ s.ready t) }

def tryAssociate (s : State n) (a : AssociationId) : State n :=
  match s.shared.tryAssociate with
  | (shared, true) =>
    { s with shared := shared, live := s.live ++ [a], granted := s.granted ++ [a] }
  | (shared, false) => { s with shared := shared }

/-- `__release` of an engaged association. -/
def release (s : State n) (t : Fin n) (a : AssociationId) : State n :=
  let (shared, ready) := s.shared.decrement
  { s with shared := shared, live := s.live.erase a }.setReady t (ready.map .schedule)

/-- `start` of a join operation up to its `set_value`. -/
def startJoin (s : State n) (t : Fin n) (j : JoinId) : State n :=
  let s := { s with started := s.started ++ [j] }
  match s.shared.startJoin j with
  | none => { s with terminated := true }
  | some (shared, true) => { s with shared := shared }.setReady t [.setValue j]
  | some (shared, false) => { s with shared := shared }

/-- One turn of `__complete_joiners`, or the `set_value` of `start`. -/
def complete (s : State n) (t : Fin n) : Option (State n) :=
  match s.ready t with
  | [] => none
  | .setValue j :: rest =>
    some { s with
      ready := Function.update s.ready t rest
      completed := s.completed ++ [(j, .value, s.shared.count)] }
  | .schedule j :: rest =>
    some { s with
      ready := Function.update s.ready t rest
      scheduled := s.scheduled ++ [j] }

end State

/-- The steps of a scope, its users and the schedulers of its joins. -/
inductive Label (n : ℕ) where
  | tryAssociate (a : AssociationId)
  | release (t : Fin n) (a : AssociationId)
  | startJoin (t : Fin n) (j : JoinId)
  | close
  | requestStop
  | complete (t : Fin n)
  | scheduler (j : JoinId) (sig : Signal)
  deriving DecidableEq, Repr

variable {n : ℕ}

def step (s : State n) : Label n → Option (State n)
  | .tryAssociate a => if a ∉ s.granted then some (s.tryAssociate a) else none
  | .release t a => if a ∈ s.live then some (s.release t a) else none
  | .startJoin t j => if j ∉ s.started then some (s.startJoin t j) else none
  | .close => some { s with shared := s.shared.close, closeCalled := true }
  | .requestStop =>
    if s.kind = .counting then some { s with stopRequested := true } else none
  | .complete t => s.complete t
  | .scheduler j sig =>
    if j ∈ s.scheduled then
      some { s with
        scheduled := s.scheduled.erase j
        completed := s.completed ++ [(j, sig, s.shared.count)] }
    else none

/-- A scope of either kind right after its construction. -/
def Initial (s : State n) : Prop := ∃ kind, s = { kind := kind }

end CCForge.CountingScope
