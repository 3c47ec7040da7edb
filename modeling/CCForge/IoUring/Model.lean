import CCForge.Lib.Run
import CCForge.Lib.WrapRing

/-!
# The io_uring rings

`ring` publishes submission entries to the kernel and takes completion entries from it. The kernel
consumes the one and posts the other at any moment. `try_publish`, `try_retract_last_unconsumed` and
`flush_published` run under one mutex, and one thread at a time drains.

`flush_published` and `drain_completions` take several steps, between which the kernel and the other
calls go on. The events carry what the calls return and what the kernel sees.
-/

namespace CCForge.IoUring

open CCForge.WrapRing

variable {Sqe Cqe : Type}

/-- The memory shared with the kernel. -/
structure Ring (Sqe Cqe : Type) where
  sqHead : BitVec 32
  sqTail : BitVec 32
  sqRingMask : BitVec 32
  sqRingEntries : BitVec 32
  sqArray : List (BitVec 32)
  sqes : List Sqe
  cqHead : BitVec 32
  cqTail : BitVec 32
  cqRingMask : BitVec 32
  cqes : List Cqe
  deriving DecidableEq, Repr

/-- `cells[i] = x`. A write outside the array has no value. -/
def store {β : Type} (cells : List β) (i : ℕ) (x : β) : Option (List β) :=
  if i < cells.length then some (cells.set i x) else none

namespace Ring

/-- `try_publish`. -/
def tryPublish [Inhabited Sqe] (r : Ring Sqe Cqe) (fill : Sqe → Sqe) : Option (Ring Sqe Cqe × Bool) :=
  let head := r.sqHead
  let tail := r.sqTail
  if tail - head ≥ r.sqRingEntries then some (r, false)
  else
    let index := tail &&& r.sqRingMask
    (store r.sqes index.toNat (fill default)).bind fun sqes =>
      (store r.sqArray index.toNat index).map fun sqArray =>
        ({ r with sqes, sqArray, sqTail := tail + 1 }, true)

/-- `try_retract_last_unconsumed`. -/
def tryRetractLastUnconsumed (r : Ring Sqe Cqe) : Ring Sqe Cqe × Bool :=
  let head := r.sqHead
  let tail := r.sqTail
  if head = tail then (r, false)
  else ({ r with sqTail := tail - 1 }, true)

/-- The entry that the kernel finds in a slot. -/
def sqeAt (r : Ring Sqe Cqe) (s : ℕ) : Option Sqe := r.sqArray[s]?.bind fun index => r.sqes[index.toNat]?

/-- The kernel posts a completion where no undrained one is. -/
def post (r : Ring Sqe Cqe) (completion : Cqe) : Option (Ring Sqe Cqe) :=
  if r.cqTail - r.cqHead ≤ r.cqRingMask then
    (store r.cqes (slot r.cqRingMask r.cqTail) completion).map fun cqes =>
      { r with cqes, cqTail := r.cqTail + 1 }
  else none

end Ring

/-- `flush_attempt_limit`. -/
def flushAttemptLimit : ℕ := 64

def EINTR : ℤ := 4

def EAGAIN : ℤ := 11

/-- Where a call of `flush_published` is. -/
inductive Flush where
  | looking (attempt : ℕ)
  | entering (attempt : ℕ)
  | returning (error : ℤ)
  deriving DecidableEq, Repr

/-- The loop of `flush_published` up to the system call. -/
def Flush.look (r : Ring Sqe Cqe) (attempt : ℕ) : Flush :=
  if attempt < flushAttemptLimit then
    if r.sqHead = r.sqTail then .returning 0 else .entering attempt
  else .returning EAGAIN

/-- The loop of `flush_published` after the system call. -/
def Flush.entered (attempt : ℕ) (result errno : ℤ) : Flush :=
  let error := if result ≥ 0 then 0 else errno
  if result ≥ 0 then .looking (attempt + 1)
  else if error = EINTR ∨ error = EAGAIN then .looking (attempt + 1)
  else .returning error

inductive Event (Sqe Cqe : Type) where
  | publish (fill : Sqe → Sqe) (accepted : Bool)
  | retract (done : Bool)
  | flush
  | look
  | enter (result errno : ℤ)
  | flushed (error : ℤ)
  | drain
  | hand (completion : Cqe)
  | drained
  | consume (sqe : Sqe)
  | post (completion : Cqe)

structure State (Sqe Cqe : Type) where
  ring : Ring Sqe Cqe
  flush : Option Flush := none
  /-- `head` and `tail` of `drain_completions`. -/
  drain : Option (BitVec 32 × BitVec 32) := none
  deriving DecidableEq, Repr

variable [Inhabited Sqe] [DecidableEq Sqe] [DecidableEq Cqe]

def step (s : State Sqe Cqe) : Event Sqe Cqe → Option (State Sqe Cqe)
  | .publish fill accepted =>
    if s.flush = none then
      (s.ring.tryPublish fill).bind fun (ring, result) =>
        if result = accepted then some { s with ring } else none
    else none
  | .retract done =>
    if s.flush = none then
      if s.ring.tryRetractLastUnconsumed.2 = done then
        some { s with ring := s.ring.tryRetractLastUnconsumed.1 }
      else none
    else none
  | .flush => if s.flush = none then some { s with flush := some (.looking 0) } else none
  | .look =>
    match s.flush with
    | some (.looking attempt) => some { s with flush := some (.look s.ring attempt) }
    | _ => none
  | .enter result errno =>
    match s.flush with
    | some (.entering attempt) =>
      -- a system call that fails sets errno
      if result < 0 ∧ errno = 0 then none
      else some { s with flush := some (.entered attempt result errno) }
    | _ => none
  | .flushed error => if s.flush = some (.returning error) then some { s with flush := none } else none
  | .drain =>
    if s.drain = none then some { s with drain := some (s.ring.cqHead, s.ring.cqTail) } else none
  | .hand completion =>
    match s.drain with
    | some (head, tail) =>
      if head ≠ tail ∧ s.ring.cqes[slot s.ring.cqRingMask head]? = some completion then
        some { s with drain := some (head + 1, tail) }
      else none
    | none => none
  | .drained =>
    match s.drain with
    | some (head, tail) =>
      if head = tail then some { s with ring := { s.ring with cqHead := head }, drain := none } else none
    | none => none
  | .consume sqe =>
    if s.ring.sqHead ≠ s.ring.sqTail ∧ s.ring.sqeAt (slot s.ring.sqRingMask s.ring.sqHead) = some sqe then
      some { s with ring := { s.ring with sqHead := s.ring.sqHead + 1 } }
    else none
  | .post completion => (s.ring.post completion).map fun ring => { s with ring }

/-! ## A bounded FIFO in each direction -/

structure Fifo (Sqe Cqe : Type) where
  /-- Published and not consumed. -/
  waiting : List Sqe := []
  /-- Posted and not handed over. -/
  undrained : List Cqe := []
  flushing : Bool := false
  /-- What the drain in progress has handed over, and how many it has left. -/
  drain : Option (ℕ × ℕ) := none

/-- The events of two FIFOs of `entries` and `cqEntries` places. What a drain has handed over keeps its
place until the drain ends. -/
def Fifo.step (entries cqEntries : ℕ) (t : Fifo Sqe Cqe) : Event Sqe Cqe → Option (Fifo Sqe Cqe)
  | .publish fill accepted =>
    if t.flushing = false ∧ accepted = decide (t.waiting.length ≠ entries) then
      some (if accepted then { t with waiting := t.waiting ++ [fill default] } else t)
    else none
  | .retract done =>
    if t.flushing = false ∧ done = decide (t.waiting ≠ []) then
      some { t with waiting := t.waiting.dropLast }
    else none
  | .flush => if t.flushing = false then some { t with flushing := true } else none
  | .look => if t.flushing then some t else none
  | .enter _ _ => if t.flushing then some t else none
  | .flushed error =>
    if t.flushing ∧ (error = 0 → t.waiting = []) then some { t with flushing := false } else none
  | .drain =>
    if t.drain = none then some { t with drain := some (0, t.undrained.length) } else none
  | .hand completion =>
    match t.drain with
    | some (held, left + 1) =>
      if t.undrained.head? = some completion then
        some { t with undrained := t.undrained.tail, drain := some (held + 1, left) }
      else none
    | _ => none
  | .drained =>
    match t.drain with
    | some (_, 0) => some { t with drain := none }
    | _ => none
  | .consume sqe =>
    if t.waiting.head? = some sqe then some { t with waiting := t.waiting.tail } else none
  | .post completion =>
    if (t.drain.elim 0 Prod.fst) + t.undrained.length < cqEntries then
      some { t with undrained := t.undrained ++ [completion] }
    else none

/-! ## The history of a run -/

/-- What was published and not retracted, in order. -/
def keep (kept : List Sqe) : Event Sqe Cqe → List Sqe
  | .publish fill true => kept ++ [fill default]
  | .retract true => kept.dropLast
  | _ => kept

def kept (events : List (Event Sqe Cqe)) : List Sqe := events.foldl keep []

/-- What the kernel saw. -/
def consumed (events : List (Event Sqe Cqe)) : List Sqe :=
  events.filterMap fun
    | .consume sqe => some sqe
    | _ => none

/-- What the kernel posted. -/
def posted (events : List (Event Sqe Cqe)) : List Cqe :=
  events.filterMap fun
    | .post completion => some completion
    | _ => none

/-- What was handed over. -/
def handed (events : List (Event Sqe Cqe)) : List Cqe :=
  events.filterMap fun
    | .hand completion => some completion
    | _ => none

end CCForge.IoUring
