import Mathlib.Data.List.Basic
import Mathlib.Logic.Function.Basic

/-!
# The blocks of a hive

A block is an array of slots with a skip field beside it. A skip entry is zero for
a live slot; a run of dead slots stores its length in its first and its last entry.
The first slot of every dead run holds the links of the block's free list in the
bytes that otherwise hold an element.

Slot indices and run lengths are stored in 16 bits; `none` is the wide `npos`.
-/

namespace CCForge.Hive

/-- The 16-bit value that stands for no slot. -/
def slotNpos : ℕ := 65535

/-- `static_cast<slot_index_type>`. -/
def toSlotIndexType (n : ℕ) : ℕ := n % 65536

def toSlotIndex : Option ℕ → ℕ
  | none => slotNpos
  | some index => toSlotIndexType index

def toWideIndex (index : ℕ) : Option ℕ := if index = slotNpos then none else some index

structure FreeRunLinks where
  previous : ℕ
  next : ℕ
  deriving DecidableEq, Repr

/-- The bytes of a slot: an element, the links of a dead run, or anything else. -/
inductive Slot (α : Type*) where
  | raw
  | element (v : α)
  | links (l : FreeRunLinks)

structure Block (α : Type*) where
  capacity : ℕ
  liveCount : ℕ := 0
  highWater : ℕ := 0
  freeHead : Option ℕ := none
  skip : ℕ → ℕ
  slots : ℕ → Slot α

namespace Block

variable {α : Type*}

def setSkip (b : Block α) (index length : ℕ) : Block α :=
  { b with skip := Function.update b.skip index length }

def setSlot (b : Block α) (index : ℕ) (slot : Slot α) : Block α :=
  { b with slots := Function.update b.slots index slot }

/-- The links in the bytes of a slot. Bytes that hold none are never read. -/
def readFreeLinks (b : Block α) (index : ℕ) : FreeRunLinks :=
  match b.slots index with
  | .links l => l
  | _ => ⟨0, 0⟩

def writeFreeLinks (b : Block α) (index : ℕ) (links : FreeRunLinks) : Block α :=
  b.setSlot index (.links links)

/-- `next` of the run before, or the head of the list. -/
def setNextOf (b : Block α) (previous : ℕ) (next : ℕ) : Block α :=
  if previous = slotNpos then { b with freeHead := toWideIndex next }
  else b.writeFreeLinks previous { b.readFreeLinks previous with next }

/-- `previous` of the run behind, if there is one. -/
def setPreviousOf (b : Block α) (next : ℕ) (previous : ℕ) : Block α :=
  if next = slotNpos then b
  else b.writeFreeLinks next { b.readFreeLinks next with previous }

def unlinkFreeRun (b : Block α) (links : FreeRunLinks) : Block α :=
  (b.setNextOf links.previous links.next).setPreviousOf links.next links.previous

def moveFreeRun (b : Block α) (index : ℕ) (links : FreeRunLinks) : Block α :=
  let b := b.writeFreeLinks index links
  (b.setNextOf links.previous (toSlotIndex (some index))).setPreviousOf links.next
    (toSlotIndex (some index))

def pushFreeRun (b : Block α) (index : ℕ) : Block α :=
  b.moveFreeRun index ⟨slotNpos, toSlotIndex b.freeHead⟩

def resetVacantBlock (b : Block α) : Block α :=
  { b with liveCount := 0, highWater := 0, freeHead := none }

/-! ## Insertion -/

/-- The slot that `emplace` uses in an available block. -/
def emplaceIndex (b : Block α) : ℕ := b.freeHead.getD b.highWater

/-- A construction that throws has overwritten the slot, and `emplace` restores the
links that a reused slot held. -/
def emplaceFailed (b : Block α) : Block α :=
  let index := b.emplaceIndex
  let links := b.readFreeLinks index
  let b' := b.setSlot index .raw
  if b.freeHead.isSome then b'.writeFreeLinks index links else b'

/-- The commit of `emplace` in an available block. -/
def emplaceCommit (b : Block α) (v : α) : Block α :=
  let index := b.emplaceIndex
  let runLength := b.skip index
  let links := b.readFreeLinks index
  let reuse := b.freeHead.isSome
  let b := (b.setSlot index (.element v)).setSkip index 0
  let b :=
    if reuse then
      if runLength = 1 then b.unlinkFreeRun links
      else
        let remaining := toSlotIndexType (runLength - 1)
        ((b.setSkip (index + 1) remaining).setSkip (index + runLength - 1) remaining).moveFreeRun
          (index + 1) links
    else { b with highWater := b.highWater + 1 }
  { b with liveCount := b.liveCount + 1 }

/-- The first element of a reserved or new block. -/
def emplaceFirst (b : Block α) (v : α) : Block α :=
  { (b.setSlot 0 (.element v)).setSkip 0 0 with highWater := 1, liveCount := 1 }

/-! ## Erasure -/

/-- The erasure of the last slot below `high_water`, with the dead run before it. -/
def eraseLast (b : Block α) (index : ℕ) : Block α :=
  let b := { b with highWater := index }
  if index ≠ 0 ∧ b.skip (index - 1) ≠ 0 then
    let runStart := index - b.skip (index - 1)
    { b.unlinkFreeRun (b.readFreeLinks runStart) with highWater := runStart }
  else b

/-- The erasure of any other slot: it becomes a dead run, or joins its neighbours. -/
def eraseInner (b : Block α) (index : ℕ) : Block α :=
  let left := if index = 0 then 0 else b.skip (index - 1)
  let right := b.skip (index + 1)
  let length := toSlotIndexType (left + right + 1)
  if left = 0 ∧ right = 0 then (b.setSkip index 1).pushFreeRun index
  else if right = 0 then (b.setSkip (index - left) length).setSkip index length
  else if left = 0 then
    let links := b.readFreeLinks (index + 1)
    ((b.setSkip index length).setSkip (index + right) length).moveFreeRun index links
  else
    let b := ((b.setSkip (index - left) length).setSkip (index + right) length).setSkip index 1
    b.unlinkFreeRun (b.readFreeLinks (index + 1))

def erase (b : Block α) (index : ℕ) : Block α :=
  let b := { b.setSlot index .raw with liveCount := b.liveCount - 1 }
  if index = b.highWater - 1 then b.eraseLast index else b.eraseInner index

/-! ## Reading -/

/-- Whether `emplace` can use the block without another one. -/
def Available (b : Block α) : Prop := b.freeHead.isSome ∨ b.highWater < b.capacity

instance (b : Block α) : Decidable b.Available := inferInstanceAs (Decidable (_ ∨ _))

/-- The live slots in index order. -/
def live (b : Block α) : List ℕ := (List.range b.highWater).filter (b.skip · = 0)

end Block

end CCForge.Hive
