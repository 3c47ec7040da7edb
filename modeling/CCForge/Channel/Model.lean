import CCForge.Lib.Run
import CCForge.Channel.RecordQueue

/-!
# The bounded channel

One transition system for a channel and all the operations started on it. A step
is one section under the channel mutex, one completion that such a section
collected and runs after releasing it, or one unlocked step of an operation's
start or of its stop callback. The two looks at `stop_requested_flag` inside
`start_send` and `start_recv` are separate steps with the mutex held in between,
because the flag is stored without it.

The fields after `batches` record the history of a run; no step reads them.
-/

namespace CCForge.Channel

/-- How far the start of an operation got. -/
inductive Phase where
  | idle
  | checked
  | installed
  | started
  deriving DecidableEq, Repr

/-- The stop callback of an operation: `flagged` is between its store of the flag
and its locked cancel. -/
inductive Callback where
  | absent
  | registered
  | flagged
  | finished
  deriving DecidableEq, Repr

/-- What ends a send: a completion signal, or the result of `try_send`. -/
inductive SendOutcome where
  | value
  | error
  | stopped
  | returned (accepted : Bool)
  | threw
  deriving DecidableEq, Repr

/-- How a receive is ended. `drain` is the loop of `close`, which looks for a
prepared value before it decides. -/
inductive RecvSignal where
  | value
  | stopped
  | drain
  | returned
  deriving DecidableEq, Repr

/-- What a receive ended with; the value is read from the record at that moment. -/
inductive RecvOutcome (α : Type*) where
  | value (v : Option α)
  | stopped
  | returned (v : Option α)
  deriving DecidableEq, Repr

inductive Completion where
  | send (i : RecordId) (o : SendOutcome)
  | recv (r : RecordId) (o : RecvSignal)
  deriving DecidableEq, Repr

structure SendRecord (α : Type*) where
  value : α
  phase : Phase := .idle
  stopRequestedFlag : Bool := false
  stopCallback : Callback := .absent
  done : Bool := false
  outcomes : List SendOutcome := []

structure RecvRecord (α : Type*) where
  value : Option α := none
  phase : Phase := .idle
  stopRequestedFlag : Bool := false
  stopCallback : Callback := .absent
  done : Bool := false
  outcomes : List (RecvOutcome α) := []

/-- The section that holds the mutex between its two looks at the flag. -/
inductive Holder where
  | send (i : RecordId)
  | recv (r : RecordId)
  deriving DecidableEq, Repr

structure Handover (α : Type*) where
  send : RecordId
  value : α
  recv : RecordId
  deriving DecidableEq, Repr

structure State (α : Type*) where
  capacity : ℕ
  closed : Bool := false
  stopped : Bool := false
  buffer : List (RecordId × α) := []
  pendingSends : RecordQueue := {}
  pendingRecvs : RecordQueue := {}
  sends : RecordId → SendRecord α
  recvs : RecordId → RecvRecord α
  mtx : Option Holder := none
  /-- The completions that released sections still have to run, one list each. -/
  batches : List (List Completion) := []
  accepted : List RecordId := []
  handed : List (Handover α) := []
  discarded : List RecordId := []
  /-- Promotions that failed since `pendingSends` was last empty. -/
  failedPromotions : ℕ := 0

/-- A new channel of any capacity, with operations carrying any values. -/
def Initial {α : Type*} (s : State α) : Prop :=
  ∃ (capacity : ℕ) (values : RecordId → α),
    s = { capacity, sends := fun i => { value := values i }, recvs := fun _ => {} }

namespace State

variable {α : Type*}

@[simp] def setSend (s : State α) (i : RecordId) (f : SendRecord α → SendRecord α) : State α :=
  { s with sends := Function.update s.sends i (f (s.sends i)) }

@[simp] def setRecv (s : State α) (r : RecordId) (f : RecvRecord α → RecvRecord α) : State α :=
  { s with recvs := Function.update s.recvs r (f (s.recvs r)) }

@[simp] def prepareValue (s : State α) (r : RecordId) (v : α) : State α :=
  s.setRecv r fun record => { record with value := some v }

/-- Leaves the mutex with the completions collected under it. -/
@[simp] def release (s : State α) (actions : List Completion) : State α :=
  { s with
    mtx := none
    batches := s.batches ++ [actions]
    failedPromotions := if s.pendingSends.empty then 0 else s.failedPromotions }

/-- Hands the value of send `i` to receive `r`. -/
@[simp] def handOver (s : State α) (i : RecordId) (v : α) (r : RecordId) : State α :=
  { s.prepareValue r v with handed := s.handed ++ [⟨i, v, r⟩] }

@[simp] def accept (s : State α) (i : RecordId) : State α := { s with accepted := s.accepted ++ [i] }

def promoteOneSendLocked (s : State α) (allocated : Bool) : State α × List Completion :=
  if s.pendingSends.empty then (s, [])
  else if s.buffer.length < s.capacity then
    match s.pendingSends.popFront with
    | (none, _) => (s, [])
    | (some i, rest) =>
      if allocated then
        ({ s with pendingSends := rest, buffer := s.buffer ++ [(i, (s.sends i).value)] },
          [.send i .value])
      else
        ({ s with pendingSends := rest, failedPromotions := s.failedPromotions + 1 },
          [.send i .error])
  else (s, [])

def startSend (s : State α) (i : RecordId) (allocated : Bool) : State α :=
  let s := s.setSend i fun record => { record with phase := .started }
  if s.stopped || s.closed then s.release [.send i .stopped]
  else if (s.sends i).stopRequestedFlag then s.release [.send i .stopped]
  else match s.pendingRecvs.popFront with
    | (some r, rest) =>
      let s := ({ s with pendingRecvs := rest }.accept i).handOver i (s.sends i).value r
      s.release [.recv r .value, .send i .value]
    | (none, _) =>
      if s.pendingSends.empty ∧ s.buffer.length < s.capacity then
        if allocated then
          { s.accept i with buffer := s.buffer ++ [(i, (s.sends i).value)] }.release
            [.send i .value]
        else s.release [.send i .error]
      else { s.accept i with pendingSends := s.pendingSends.pushBack i, mtx := some (.send i) }

/-- The second look at the flag, after the record was linked. -/
def recheckSend (s : State α) (i : RecordId) : State α :=
  if (s.sends i).stopRequestedFlag then
    match s.pendingSends.remove i with
    | (some j, rest) => { s with pendingSends := rest }.release [.send j .stopped]
    | (none, rest) => { s with pendingSends := rest }.release []
  else s.release []

/-- The two sources a receive prefers to waiting: the buffer, with a promotion into
the freed slot, and a waiting sender. -/
def receiveLocked (s : State α) (r : RecordId) (allocated : Bool) :
    Option (State α × List Completion) :=
  match s.buffer with
  | (i, v) :: rest => some ({ s.handOver i v r with buffer := rest }.promoteOneSendLocked allocated)
  | [] =>
    match s.pendingSends.popFront with
    | (some i, rest) =>
      some ({ s with pendingSends := rest }.handOver i (s.sends i).value r, [.send i .value])
    | (none, _) => none

def startRecv (s : State α) (r : RecordId) (allocated : Bool) : State α :=
  let s := s.setRecv r fun record => { record with phase := .started }
  match s.receiveLocked r allocated with
  | some (s, actions) => s.release (.recv r .value :: actions)
  | none =>
    if s.stopped || s.closed then s.release [.recv r .stopped]
    else if (s.recvs r).stopRequestedFlag then s.release [.recv r .stopped]
    else { s with pendingRecvs := s.pendingRecvs.pushBack r, mtx := some (.recv r) }

def recheckRecv (s : State α) (r : RecordId) : State α :=
  if (s.recvs r).stopRequestedFlag then
    match s.pendingRecvs.remove r with
    | (some j, rest) => { s with pendingRecvs := rest }.release [.recv j .stopped]
    | (none, rest) => { s with pendingRecvs := rest }.release []
  else s.release []

def trySend (s : State α) (i : RecordId) (allocated : Bool) : State α :=
  let s := s.setSend i fun record => { record with phase := .started }
  if s.stopped || s.closed then s.release [.send i (.returned false)]
  else match s.pendingRecvs.popFront with
    | (some r, rest) =>
      let s := ({ s with pendingRecvs := rest }.accept i).handOver i (s.sends i).value r
      s.release [.recv r .value, .send i (.returned true)]
    | (none, _) =>
      if s.pendingSends.empty ∧ s.buffer.length < s.capacity then
        if allocated then
          { s.accept i with buffer := s.buffer ++ [(i, (s.sends i).value)] }.release
            [.send i (.returned true)]
        else s.release [.send i .threw]
      else s.release [.send i (.returned false)]

def tryRecv (s : State α) (r : RecordId) (allocated : Bool) : State α :=
  let s := s.setRecv r fun record => { record with phase := .started }
  match s.receiveLocked r allocated with
  | some (s, actions) => s.release (actions ++ [.recv r .returned])
  | none => s.release [.recv r .returned]

def close (s : State α) : State α :=
  let recvs := s.pendingRecvs.takeAll
  let sends := s.pendingSends.takeAll
  { s with closed := true, pendingSends := sends.2, pendingRecvs := recvs.2 }.release
    (recvs.1.map (Completion.recv · .drain) ++ sends.1.map (Completion.send · .stopped))

def requestStop (s : State α) : State α :=
  let recvs := s.pendingRecvs.takeAll
  let sends := s.pendingSends.takeAll
  { s with
    stopped := true
    pendingSends := sends.2
    pendingRecvs := recvs.2
    buffer := []
    discarded := s.discarded ++ s.buffer.map Prod.fst }.release
    (recvs.1.map (Completion.recv · .stopped) ++ sends.1.map (Completion.send · .stopped))

def cancelSend (s : State α) (i : RecordId) : State α :=
  let s := s.setSend i fun record => { record with stopCallback := .finished }
  match s.pendingSends.remove i with
  | (some j, rest) => { s with pendingSends := rest }.release [.send j .stopped]
  | (none, rest) => { s with pendingSends := rest }.release []

def cancelRecv (s : State α) (r : RecordId) : State α :=
  let s := s.setRecv r fun record => { record with stopCallback := .finished }
  match s.pendingRecvs.remove r with
  | (some j, rest) => { s with pendingRecvs := rest }.release [.recv j .stopped]
  | (none, rest) => { s with pendingRecvs := rest }.release []

/-- `stop_callback.reset()`: a callback that has not begun never will. -/
def resetCallback : Callback → Callback
  | .registered => .absent
  | c => c

def completeSend (s : State α) (i : RecordId) (o : SendOutcome) : State α :=
  if (s.sends i).done then s
  else s.setSend i fun record =>
    { record with done := true, outcomes := record.outcomes ++ [o],
                  stopCallback := resetCallback record.stopCallback }

def recvOutcome (record : RecvRecord α) : RecvSignal → RecvOutcome α
  | .value => .value record.value
  | .stopped => .stopped
  | .drain => if record.value.isSome then .value record.value else .stopped
  | .returned => .returned record.value

def completeRecv (s : State α) (r : RecordId) (o : RecvSignal) : State α :=
  if (s.recvs r).done then s
  else s.setRecv r fun record =>
    { record with done := true, outcomes := record.outcomes ++ [recvOutcome record o],
                  stopCallback := resetCallback record.stopCallback }

def complete (s : State α) : Completion → State α
  | .send i o => s.completeSend i o
  | .recv r o => s.completeRecv r o

end State

/-- The steps of a channel. The Boolean arguments are the choices of the
environment: whether the stop token has been requested, whether the callback could
be installed and whether it can ever fire, whether a buffer node was allocated. -/
inductive Label where
  | checkSend (i : RecordId) (stopRequested : Bool)
  | installSend (i : RecordId) (installed stopPossible : Bool)
  | startSend (i : RecordId) (allocated : Bool)
  | recheckSend (i : RecordId)
  | flagSend (i : RecordId)
  | cancelSend (i : RecordId)
  | checkRecv (r : RecordId) (stopRequested : Bool)
  | installRecv (r : RecordId) (installed stopPossible : Bool)
  | startRecv (r : RecordId) (allocated : Bool)
  | recheckRecv (r : RecordId)
  | flagRecv (r : RecordId)
  | cancelRecv (r : RecordId)
  | trySend (i : RecordId) (allocated : Bool)
  | tryRecv (r : RecordId) (allocated : Bool)
  | close
  | requestStop
  | complete (batch : ℕ)
  deriving DecidableEq, Repr

variable {α : Type*}

/-- One step. Locked sections wait for the mutex; every operation starts once. -/
def step (s : State α) : Label → Option (State α)
  | .checkSend i stopRequested =>
    if (s.sends i).phase = .idle then
      some <| if stopRequested then
        { s.setSend i fun record => { record with phase := .started } with
          batches := s.batches ++ [[.send i .stopped]] }
      else s.setSend i fun record => { record with phase := .checked }
    else none
  | .installSend i installed stopPossible =>
    if (s.sends i).phase = .checked then
      some <| if installed then
        s.setSend i fun record =>
          { record with phase := .installed
                        stopCallback := if stopPossible then .registered else .absent }
      else
        { s.setSend i fun record => { record with phase := .started } with
          batches := s.batches ++ [[.send i .stopped]] }
    else none
  | .startSend i allocated =>
    if s.mtx = none ∧ (s.sends i).phase = .installed then some (s.startSend i allocated) else none
  | .recheckSend i => if s.mtx = some (.send i) then some (s.recheckSend i) else none
  | .flagSend i =>
    if (s.sends i).stopCallback = .registered then
      some (s.setSend i fun record =>
        { record with stopRequestedFlag := true, stopCallback := .flagged })
    else none
  | .cancelSend i =>
    if s.mtx = none ∧ (s.sends i).stopCallback = .flagged then some (s.cancelSend i) else none
  | .checkRecv r stopRequested =>
    if (s.recvs r).phase = .idle then
      some <| if stopRequested then
        { s.setRecv r fun record => { record with phase := .started } with
          batches := s.batches ++ [[.recv r .stopped]] }
      else s.setRecv r fun record => { record with phase := .checked }
    else none
  | .installRecv r installed stopPossible =>
    if (s.recvs r).phase = .checked then
      some <| if installed then
        s.setRecv r fun record =>
          { record with phase := .installed
                        stopCallback := if stopPossible then .registered else .absent }
      else
        { s.setRecv r fun record => { record with phase := .started } with
          batches := s.batches ++ [[.recv r .stopped]] }
    else none
  | .startRecv r allocated =>
    if s.mtx = none ∧ (s.recvs r).phase = .installed then some (s.startRecv r allocated) else none
  | .recheckRecv r => if s.mtx = some (.recv r) then some (s.recheckRecv r) else none
  | .flagRecv r =>
    if (s.recvs r).stopCallback = .registered then
      some (s.setRecv r fun record =>
        { record with stopRequestedFlag := true, stopCallback := .flagged })
    else none
  | .cancelRecv r =>
    if s.mtx = none ∧ (s.recvs r).stopCallback = .flagged then some (s.cancelRecv r) else none
  | .trySend i allocated =>
    if s.mtx = none ∧ (s.sends i).phase = .idle then some (s.trySend i allocated) else none
  | .tryRecv r allocated =>
    if s.mtx = none ∧ (s.recvs r).phase = .idle then some (s.tryRecv r allocated) else none
  | .close => if s.mtx = none then some s.close else none
  | .requestStop => if s.mtx = none then some s.requestStop else none
  | .complete batch =>
    match s.batches[batch]? with
    | some (c :: rest) => some { s.complete c with batches := s.batches.set batch rest }
    | _ => none

end CCForge.Channel
