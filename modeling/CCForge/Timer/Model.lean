import CCForge.Lib.Run
import Mathlib.Data.Int.Notation

/-!
# The timer context

The data behind the mutex of a timer context is the vector of queued items, the
shutdown flag and the number of pending items. Items carry their deadline and a flag
that their stop callback sets. The worker looks at the data in iterations under the
lock, delivers the item it took without the lock and then lowers the number.

The second half of the file is the context with its callers left open: any thread
may enqueue, discard, stop and shut down at any time, and the clock shows any
sequence of readings that does not go back. `Turn` records what an iteration saw
when it took an item.
-/

namespace CCForge.Timer

abbrev ItemId := ℕ

/-- The deadline is a reading of the steady clock. -/
structure Item where
  id : ItemId
  deadline : ℤ
  deriving DecidableEq, Repr

/-- `std::min_element` by deadline: the first of the least. -/
def minElement (first : Item) : List Item → Item
  | [] => first
  | x :: rest => minElement (if x.deadline < first.deadline then x else first) rest

/-- The data behind the mutex of a timer context. -/
structure Shared where
  items : List Item := []
  /-- The flag `stop_requested` of each item. -/
  stopRequested : ItemId → Bool := fun _ => false
  stop : Bool := false
  pending : ℕ := 0

/-- What one iteration of the worker ends with. -/
inductive Pick where
  | exit
  | wait
  /-- An item to deliver, and the items that stay. -/
  | take (item : Item) (completeStopped : Bool) (items : List Item)
  deriving DecidableEq, Repr

namespace Shared

/-- `true` says that the item was accepted. `throws` says that `push_back` throws. -/
def enqueue (s : Shared) (item : Item) (throws : Bool) : Shared × Bool :=
  if s.stop then (s, false)
  else if throws then (s, false)
  else ({ s with items := s.items ++ [item], pending := s.pending + 1 }, true)

def shutdown (s : Shared) : Shared := { s with stop := true }

def requestItemStop (s : Shared) (id : ItemId) : Shared :=
  { s with stopRequested := Function.update s.stopRequested id true }

/-- `true` says that the item was still queued. -/
def discardItem (s : Shared) (id : ItemId) : Shared × Bool :=
  match s.items.find? fun item => item.id = id with
  | none => (s, false)
  | some item => ({ s with items := s.items.erase item, pending := s.pending - 1 }, true)

/-- One iteration of the inner loop of `run`, with the clock at `now`. -/
def pick (s : Shared) (now : ℤ) : Pick :=
  if s.stop then
    match s.items.getLast? with
    | none => .exit
    | some item => .take item true s.items.dropLast
  else
    match s.items with
    | [] => .wait
    | first :: rest =>
      match s.items.find? fun item => s.stopRequested item.id with
      | some item => .take item true (s.items.erase item)
      | none =>
        let next := minElement first rest
        if next.deadline ≤ now then .take next false (s.items.erase next) else .wait

/-- The locked section of `run` after a delivery. -/
def account (s : Shared) : Shared := { s with pending := s.pending - 1 }

/-- The predicate that `wait` blocks on. -/
def Idle (s : Shared) : Prop := s.pending = 0

instance (s : Shared) : Decidable s.Idle := inferInstanceAs (Decidable (_ = _))

end Shared

/-! ## The context under arbitrary calls -/

inductive Worker where
  | iterating
  | delivering (item : Item) (completeStopped : Bool)
  /-- After the delivery, before the section that decrements. -/
  | accounting (item : Item)
  | exited
  deriving DecidableEq, Repr

/-- An iteration that took an item, with the data it saw. -/
structure Turn where
  item : Item
  completeStopped : Bool
  now : ℤ
  saw : Shared

structure State where
  shared : Shared := {}
  worker : Worker := .iterating
  clock : ℤ := 0
  /-- The accepted items, in the order in which they were enqueued. -/
  enqueued : List Item := []
  turns : List Turn := []
  delivered : List (Item × Bool) := []
  discarded : List Item := []

namespace State

def enqueue (s : State) (item : Item) (throws : Bool) : State :=
  match s.shared.enqueue item throws with
  | (shared, true) => { s with shared := shared, enqueued := s.enqueued ++ [item] }
  | (shared, false) => { s with shared := shared }

def discardItem (s : State) (id : ItemId) : State :=
  { s with
    shared := (s.shared.discardItem id).1
    discarded := s.discarded ++ (s.shared.items.find? fun item => item.id = id).toList }

def iterate (s : State) (now : ℤ) : State :=
  match s.shared.pick now with
  | .exit => { s with clock := now, worker := .exited }
  | .wait => { s with clock := now }
  | .take item completeStopped items =>
    { s with
      clock := now
      shared := { s.shared with items := items }
      worker := .delivering item completeStopped
      turns := s.turns ++ [⟨item, completeStopped, now, s.shared⟩] }

end State

inductive Label where
  | enqueue (item : Item) (throws : Bool)
  | requestItemStop (id : ItemId)
  | discardItem (id : ItemId)
  | shutdown
  | iterate (now : ℤ)
  | deliver
  | account
  deriving DecidableEq, Repr

/-- The steps of the worker. -/
def Label.ofWorker : Label → Bool
  | .iterate _ | .deliver | .account => true
  | _ => false

def step (s : State) : Label → Option State
  | .enqueue item throws =>
    if item.id ∉ s.enqueued.map Item.id then some (s.enqueue item throws) else none
  | .requestItemStop id => some { s with shared := s.shared.requestItemStop id }
  | .discardItem id => some (s.discardItem id)
  | .shutdown => some { s with shared := s.shared.shutdown }
  | .iterate now =>
    if s.worker = .iterating ∧ s.clock ≤ now then some (s.iterate now) else none
  | .deliver =>
    match s.worker with
    | .delivering item completeStopped =>
      some { s with
        worker := .accounting item
        delivered := s.delivered ++ [(item, completeStopped)] }
    | _ => none
  | .account =>
    match s.worker with
    | .accounting _ => some { s with worker := .iterating, shared := s.shared.account }
    | _ => none

/-- A context right after its construction, whatever the clock shows. -/
def Initial (s : State) : Prop := ∃ now, s = { clock := now }

end CCForge.Timer
