import CCForge.Lib.LinkedList
import CCForge.Hive.Block
import Mathlib.Algebra.Group.Nat.Defs

/-!
# The store of a program with hives

All hives of a program share one memory. A block, a control and a hive are named by
the identity of the object; every field of the source is a column indexed by it, so
that a pointer that outlives its hive or is shared by two hives can be written down.
Sizes, orders and epochs are `size_t` counters and are kept exact. The operations of
this module cannot throw.
-/

namespace CCForge.Hive

abbrev BlockId := ℕ

abbrev ControlId := ℕ

/-- A hive of the program, or the local object of a rebuild. -/
inductive HiveId where
  | named (n : ℕ)
  | rebuilt
  deriving DecidableEq, Repr

/-- What an allocator has handed out. -/
inductive Allocation where
  | control (c : ControlId)
  | block (b : BlockId)
  | slots (b : BlockId)
  | skip (b : BlockId)
  deriving DecidableEq, Repr

/-- `hive_limits`. -/
structure Limits where
  min : ℕ
  max : ℕ
  deriving DecidableEq, Repr

/-- The `max_size` that an allocator reports for elements, slots and skip entries. -/
structure Allocator where
  maxSize : ℕ
  slotMax : ℕ
  skipMax : ℕ

/-- `control_type`. -/
structure Control where
  owner : HiveId
  activeHead : Option BlockId := none
  activeTail : Option BlockId := none
  reservedHead : Option BlockId := none
  availableHead : Option BlockId := none
  size : ℕ := 0
  capacity : ℕ := 0
  nextBlockOrder : ℕ := 0

/-- The fields of a `hive` object. -/
structure Container where
  alloc : Allocator
  limits : Limits
  control : Option ControlId := none
  endEpoch : ℕ := 0

structure World (α : Type) where
  block : BlockId → Block α
  blockControl : BlockId → ControlId
  order : BlockId → ℕ
  active : BlockId → Bool
  inAvailable : BlockId → Bool
  activeLinks : Links BlockId
  availableLinks : Links BlockId
  reservedNext : BlockId → Option BlockId
  control : ControlId → Control
  container : HiveId → Container
  heap : Allocation → Bool
  nextBlock : BlockId
  nextControl : ControlId
  /-- The number of calls so far that could have thrown. -/
  calls : ℕ

/-- `hive_iterator`. An iterator to an element has no owner and epoch zero. -/
structure Iterator where
  block : Option BlockId
  index : ℕ
  owner : Option HiveId
  epoch : ℕ
  deriving DecidableEq, Repr

def npos : ℕ := 2 ^ 64 - 1

/-- The iterator to the slot `index` of a block. -/
def Iterator.at (b : BlockId) (index : ℕ) : Iterator := ⟨some b, index, none, 0⟩

namespace Block

variable {α : Type*}

/-- The loop of `destroy_live_elements`, from `index` on. -/
def destroyFrom (b : Block α) : ℕ → ℕ → Block α
  | 0, _ => b
  | fuel + 1, index =>
    if index < b.highWater then
      let index' := index + 1
      (b.setSlot index .raw).destroyFrom fuel
        (if index' < b.highWater then index' + b.skip index' else index')
    else b

def destroyLiveElements (b : Block α) : Block α :=
  b.destroyFrom b.highWater (if b.highWater = 0 then 0 else b.skip 0)

end Block

namespace World

variable {α : Type}

def modifyBlock (w : World α) (b : BlockId) (f : Block α → Block α) : World α :=
  { w with block := Function.update w.block b (f (w.block b)) }

def modifyControl (w : World α) (c : ControlId) (f : Control → Control) : World α :=
  { w with control := Function.update w.control c (f (w.control c)) }

def modifyContainer (w : World α) (h : HiveId) (f : Container → Container) : World α :=
  { w with container := Function.update w.container h (f (w.container h)) }

def release (w : World α) (a : Allocation) : World α :=
  { w with heap := Function.update w.heap a false }

def deallocateControl (w : World α) (c : ControlId) : World α := w.release (.control c)

def deallocateBlock (w : World α) (b : BlockId) : World α :=
  ((w.release (.skip b)).release (.slots b)).release (.block b)

/-! ## The lists of a control -/

def availableAdd (w : World α) (c : ControlId) (b : BlockId) : World α :=
  { w.modifyControl c ({ · with availableHead := some b }) with
    inAvailable := Function.update w.inAvailable b true
    availableLinks := w.availableLinks.push (w.control c).availableHead b }

def availableRemove (w : World α) (c : ControlId) (b : BlockId) : World α :=
  if w.inAvailable b then
    { w.modifyControl c (fun k =>
        { k with
          availableHead :=
            if (w.availableLinks.prev b).isNone then w.availableLinks.next b
            else k.availableHead }) with
      inAvailable := Function.update w.inAvailable b false
      availableLinks := w.availableLinks.unlink b }
  else w

def activeAppend (w : World α) (c : ControlId) (b : BlockId) : World α :=
  let tail := (w.control c).activeTail
  { w.modifyControl c (fun k =>
      { k with
        nextBlockOrder := k.nextBlockOrder + 1
        activeHead := if tail.isNone then some b else k.activeHead
        activeTail := some b }) with
    active := Function.update w.active b true
    order := Function.update w.order b (w.control c).nextBlockOrder
    activeLinks := w.activeLinks.append tail b }

def activeRemove (w : World α) (c : ControlId) (b : BlockId) : World α :=
  let prev := w.activeLinks.prev b
  let next := w.activeLinks.next b
  { w.modifyControl c (fun k =>
      { k with
        activeHead := if prev.isNone then next else k.activeHead
        activeTail := if next.isNone then prev else k.activeTail }) with
    active := Function.update w.active b false
    activeLinks := w.activeLinks.unlink b }

/-- The assignments to `reserved_next` and `reserved_head` that put a block on the
reserved list. -/
def reservedPush (w : World α) (c : ControlId) (b : BlockId) : World α :=
  { w.modifyControl c ({ · with reservedHead := some b }) with
    reservedNext := Function.update w.reservedNext b (w.control c).reservedHead }

def linkReserved (w : World α) (c : ControlId) (b : BlockId) : World α :=
  let w := { w with active := Function.update w.active b false }
  (w.reservedPush c b).modifyControl c fun k => { k with capacity := k.capacity + (w.block b).capacity }

def touchEnd (w : World α) (h : HiveId) : World α :=
  w.modifyContainer h fun k => { k with endEpoch := k.endEpoch + 1 }

/-! ## Observers -/

def size (w : World α) (h : HiveId) : ℕ :=
  match (w.container h).control with
  | some c => (w.control c).size
  | none => 0

def capacity (w : World α) (h : HiveId) : ℕ :=
  match (w.container h).control with
  | some c => (w.control c).capacity
  | none => 0

/-- `end()`. -/
def last (w : World α) (h : HiveId) : Iterator := ⟨none, npos, some h, (w.container h).endEpoch⟩

/-- `begin()`. -/
def first (w : World α) (h : HiveId) : Iterator :=
  match (w.container h).control with
  | some c =>
    match (w.control c).activeHead with
    | some b => .at b ((w.block b).skip 0)
    | none => w.last h
  | none => w.last h

/-- `operator++`. -/
def next (w : World α) (it : Iterator) : Iterator :=
  match it.block with
  | none => it
  | some b =>
    let index := it.index + 1
    if index < (w.block b).highWater then { it with index := index + (w.block b).skip index }
    else
      match w.activeLinks.next b with
      | some b' => { it with block := some b', index := (w.block b').skip 0 }
      | none =>
        let owner := (w.control (w.blockControl b)).owner
        ⟨none, npos, some owner, (w.container owner).endEpoch⟩

/-- The last slot of a block, for `operator--`. -/
def back (w : World α) (b : BlockId) : ℕ := (w.block b).highWater - 1

/-- `operator--`. -/
def prev (w : World α) (it : Iterator) : Iterator :=
  match it.block with
  | none =>
    match it.owner.bind fun h => (w.container h).control.bind fun c => (w.control c).activeTail with
    | none => it
    | some b => .at b (w.back b)
  | some b =>
    let previous := it.index - 1
    let skipped := (w.block b).skip previous
    if it.index ≠ 0 ∧ skipped ≤ previous then { it with index := previous - skipped }
    else
      match w.activeLinks.prev b with
      | some b' => { it with block := some b', index := w.back b' }
      | none => it

/-- `operator==`. -/
def same (left right : Iterator) : Bool :=
  if left.block.isSome ∨ right.block.isSome then
    left.block.isSome ∧ right.block.isSome ∧ left.block = right.block ∧ left.index = right.index
  else left.owner = right.owner ∧ left.epoch = right.epoch

/-- The element that an iterator refers to. -/
def value (w : World α) (it : Iterator) : Option α :=
  match it.block with
  | none => none
  | some b =>
    match (w.block b).slots it.index with
    | .element v => some v
    | _ => none

/-- Writes through an iterator. -/
def assignAt (w : World α) (it : Iterator) (v : α) : World α :=
  match it.block with
  | none => w
  | some b => w.modifyBlock b (·.setSlot it.index (.element v))

/-! ## Operations that cannot throw -/

/-- The body of the loop of `clear_without_end_invalidation`. -/
def clearBlock (w : World α) (c : ControlId) (b : BlockId) : World α :=
  let w := w.modifyBlock b fun k => k.destroyLiveElements.resetVacantBlock
  let w := { w with
    active := Function.update w.active b false
    activeLinks := w.activeLinks.put b none none
    availableLinks := w.availableLinks.put b none none
    inAvailable := Function.update w.inAvailable b false }
  w.reservedPush c b

/-- The loop of `clear_without_end_invalidation`. -/
def clearFrom (c : ControlId) : ℕ → Option BlockId → World α → World α
  | 0, _, w => w
  | _ + 1, none, w => w
  | fuel + 1, some b, w =>
    let next := w.activeLinks.next b
    clearFrom c fuel next (w.clearBlock c b)

def clearWithoutEndInvalidation (w : World α) (h : HiveId) : World α :=
  match (w.container h).control with
  | none => w
  | some c =>
    (clearFrom c w.nextBlock (w.control c).activeHead w).modifyControl c fun k =>
      { k with activeHead := none, activeTail := none, availableHead := none, size := 0 }

def clear (w : World α) (h : HiveId) : World α := (w.clearWithoutEndInvalidation h).touchEnd h

/-- The two loops of `release_storage`. -/
def releaseActive : ℕ → Option BlockId → World α → World α
  | 0, _, w => w
  | _ + 1, none, w => w
  | fuel + 1, some b, w =>
    let next := w.activeLinks.next b
    releaseActive fuel next ((w.modifyBlock b Block.destroyLiveElements).deallocateBlock b)

def releaseReserved : ℕ → Option BlockId → World α → World α
  | 0, _, w => w
  | _ + 1, none, w => w
  | fuel + 1, some b, w => releaseReserved fuel (w.reservedNext b) (w.deallocateBlock b)

def releaseStorage (w : World α) (h : HiveId) : World α :=
  match (w.container h).control with
  | none => w
  | some c =>
    let w := releaseActive w.nextBlock (w.control c).activeHead w
    let w := releaseReserved w.nextBlock (w.control c).reservedHead w
    (w.deallocateControl c).modifyContainer h ({ · with control := none })

/-- The loop of both overloads of `trim_capacity`: drops reserved blocks while `mayDrop`
allows it for the capacity that would be left. -/
def trimWhile (c : ControlId) (mayDrop : ℕ → Bool) : ℕ → World α → World α
  | 0, w => w
  | fuel + 1, w =>
    match (w.control c).reservedHead with
    | none => w
    | some b =>
      if mayDrop ((w.control c).capacity - (w.block b).capacity) then
        let w := w.modifyControl c fun k =>
          { k with
            reservedHead := w.reservedNext b
            capacity := k.capacity - (w.block b).capacity }
        trimWhile c mayDrop fuel (w.deallocateBlock b)
      else w

/-- `trim_capacity()`. -/
def trimCapacity (w : World α) (h : HiveId) : World α :=
  match (w.container h).control with
  | none => w
  | some c => trimWhile c (fun _ => true) w.nextBlock w

/-- `trim_capacity(n)`. -/
def trimCapacityTo (w : World α) (h : HiveId) (n : ℕ) : World α :=
  match (w.container h).control with
  | none => w
  | some c =>
    if n ≥ (w.control c).capacity then w else trimWhile c (fun rest => rest ≥ n) w.nextBlock w

/-- The first part of `erase`: the element is destroyed and counted out. -/
def eraseElement (w : World α) (c : ControlId) (b : BlockId) (index : ℕ) : World α :=
  (w.modifyBlock b (·.erase index)).modifyControl c fun k => { k with size := k.size - 1 }

/-- The second part of `erase`: the block changes its lists. -/
def eraseRelist (w : World α) (c : ControlId) (b : BlockId) : World α :=
  if (w.block b).liveCount = 0 then
    (((w.availableRemove c b).activeRemove c b).modifyBlock b Block.resetVacantBlock).reservedPush c b
  else if w.inAvailable b then w
  else w.availableAdd c b

/-- `erase(position)`. -/
def erase (w : World α) (h : HiveId) (position : Iterator) : Iterator × World α :=
  match position.block, (w.container h).control with
  | some b, some c =>
    let successor := w.next position
    let w := (w.eraseElement c b position.index).eraseRelist c b
    match successor.block with
    | none =>
      let w := w.touchEnd h
      (w.last h, w)
    | some b' => (.at b' successor.index, w)
  | _, _ => (position, w)

/-- The two loops of `erase(first, last)`. -/
def eraseWhile (h : HiveId) (continues : Iterator → Bool) : ℕ → Iterator → World α → World α
  | 0, _, w => w
  | fuel + 1, it, w =>
    if continues it then
      let (it', w') := w.erase h it
      eraseWhile h continues fuel it' w'
    else w

/-- `erase(first, last)`. -/
def eraseRange (w : World α) (h : HiveId) (first last : Iterator) : Iterator × World α :=
  match last.block with
  | none =>
    let w' := eraseWhile h (fun it => it.block.isSome) (w.size h) first w
    (w'.last h, w')
  | some b =>
    let w' := eraseWhile h (fun it => it.block ≠ some b ∨ it.index ≠ last.index) (w.size h) first w
    (.at b last.index, w')

end World

end CCForge.Hive
