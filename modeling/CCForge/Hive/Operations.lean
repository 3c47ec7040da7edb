import CCForge.Lib.Effects
import CCForge.Lib.Run
import CCForge.Hive.Model

/-!
# Operations that may throw

Every allocation and every construction may throw. Which ones do is fixed in
advance by an arbitrary sequence, so that a statement about every sequence covers
every pattern of failures. An exception leaves the store as it was changed so far.
-/

namespace CCForge.Hive

inductive Error where
  | lengthError (what : String)
  | badAlloc
  /-- The allocator's `construct` threw for a control or a block. -/
  | construct
  /-- The constructor of an element threw. -/
  | element
  deriving DecidableEq, Repr

/-- What lies outside of the source: the element type, the allocator type and the
memory. -/
structure Env (α : Type) where
  /-- `static_max_size()`, a constant of the element and the allocator type. -/
  staticMaxSize : ℕ
  /-- `propagate_on_container_swap`. -/
  pocs : Bool
  /-- What a move leaves behind, and what a move that throws leaves behind. -/
  moved : α → α
  partlyMoved : α → α
  /-- Whether the `n`-th call that can throw does. -/
  throws : ℕ → Bool
  /-- The skip entries of newly allocated memory. -/
  uninitialised : BlockId → ℕ → ℕ

abbrev HiveM (α : Type) := Effect (World α) Error

section

variable {α : Type} (env : Env α)

/-- A call that can throw `e`. -/
def mayThrow (e : Error) : HiveM α Unit := do
  let w ← get
  modify fun w => { w with calls := w.calls + 1 }
  if env.throws w.calls then throw e else pure ()

def allocate (a : Allocation) : HiveM α Unit := do
  mayThrow env .badAlloc
  modify fun w => { w with heap := Function.update w.heap a true }

def allocateControl (h : HiveId) : HiveM α ControlId := do
  let c := (← get).nextControl
  allocate env (.control c)
  tryCatch (mayThrow env .construct) fun e => do
    modify (·.release (.control c))
    throw e
  modify fun w => { w.modifyControl c (fun _ => { owner := h }) with nextControl := c + 1 }
  return c

def allocateBlock (c : ControlId) (capacity : ℕ) : HiveM α BlockId := do
  let b := (← get).nextBlock
  allocate env (.block b)
  tryCatch (allocate env (.slots b)) fun e => do
    modify (·.release (.block b))
    throw e
  tryCatch (allocate env (.skip b)) fun e => do
    modify fun w => (w.release (.slots b)).release (.block b)
    throw e
  tryCatch (mayThrow env .construct) fun e => do
    modify fun w => ((w.release (.skip b)).release (.slots b)).release (.block b)
    throw e
  modify fun w =>
    { w with
      block := Function.update w.block b
        { capacity := capacity, skip := env.uninitialised b, slots := fun _ => .raw }
      blockControl := Function.update w.blockControl b c
      order := Function.update w.order b 0
      active := Function.update w.active b false
      inAvailable := Function.update w.inAvailable b false
      activeLinks := w.activeLinks.put b none none
      availableLinks := w.availableLinks.put b none none
      reservedNext := Function.update w.reservedNext b none
      nextBlock := b + 1 }
  return b

/-! ## Limits -/

def maxSize (w : World α) (h : HiveId) : ℕ := min (w.container h).alloc.maxSize env.staticMaxSize

def blockCapacityHardLimits : Limits :=
  let maximum := min env.staticMaxSize slotNpos
  ⟨if maximum < 1 then maximum else 1, maximum⟩

def isWithinHardLimits (limits : Limits) : Bool :=
  let hard := blockCapacityHardLimits env
  hard.min ≤ limits.min ∧ limits.min ≤ limits.max ∧ limits.max ≤ hard.max

def validateLimits (limits : Limits) : HiveM α Unit :=
  if isWithinHardLimits env limits then pure ()
  else throw (.lengthError "std::hive: invalid block capacity limits")

def within (limits : Limits) (capacity : ℕ) : Bool :=
  limits.min ≤ capacity ∧ capacity ≤ limits.max

def allocationBlockMax (w : World α) (h : HiveId) : ℕ :=
  let k := w.container h
  min (min k.limits.max slotNpos) (min k.alloc.slotMax k.alloc.skipMax)

/-- `capacity_plan`. -/
structure Plan where
  blocks : ℕ
  added : ℕ
  blockMax : ℕ

def planCapacity (w : World α) (h : HiveId) (current requested : ℕ) : Option Plan :=
  let limits := (w.container h).limits
  let maximum := maxSize env w h
  let blockMax := allocationBlockMax w h
  if requested > maximum ∨ current > maximum ∨ limits.min = 0 ∨ blockMax < limits.min then none
  else
    let missing := requested - current
    let blocks := missing / blockMax + if missing % blockMax ≠ 0 then 1 else 0
    if blocks > (maximum - current) / limits.min then none
    else some ⟨blocks, max missing (blocks * limits.min), blockMax⟩

/-- The control of a hive, allocated if there is none yet. -/
def controlOrNew (h : HiveId) : HiveM α ControlId := do
  match ((← get).container h).control with
  | some c => pure c
  | none => allocateControl env h

/-- Releases a control that was allocated for this call. -/
def dropNewControl (newControl : Bool) (c : ControlId) (w : World α) : World α :=
  if newControl then w.deallocateControl c else w

/-- Attaches a control that was allocated for this call. -/
def attachNewControl (newControl : Bool) (h : HiveId) (c : ControlId) (w : World α) : World α :=
  if newControl then w.modifyContainer h ({ · with control := some c }) else w

/-- The loop of `reserve_blocks`. -/
def reserveBlocks (h : HiveId) (blockMax : ℕ) : ℕ → ℕ → HiveM α Unit
  | 0, _ => pure ()
  | blocks + 1, added => do
    let w ← get
    let limits := (w.container h).limits
    let blockCapacity := min blockMax (added - blocks * limits.min)
    let newControl := (w.container h).control.isNone
    let c ← controlOrNew env h
    let b ← tryCatch (allocateBlock env c blockCapacity) fun e => do
      modify (dropNewControl newControl c)
      throw e
    modify fun w => (attachNewControl newControl h c w).linkReserved c b
    reserveBlocks h blockMax blocks (added - blockCapacity)

def reserve (h : HiveId) (n : ℕ) : HiveM α Unit := do
  let w ← get
  if n ≤ w.capacity h then pure ()
  else
    match planCapacity env w h (w.capacity h) n with
    | none => throw (.lengthError "std::hive::reserve exceeds max_size")
    | some plan => reserveBlocks env h plan.blockMax plan.blocks plan.added

/-! ## Insertion -/

/-- The commit of `emplace` with an available block. -/
def commitAvailable (w : World α) (h : HiveId) (c : ControlId) (b : BlockId) (v : α) : World α :=
  let w := w.modifyBlock b (·.emplaceCommit v)
  let w := w.modifyControl c fun k => { k with size := k.size + 1 }
  let w :=
    if (w.block b).highWater = (w.block b).capacity ∧ (w.block b).freeHead = none then
      w.availableRemove c b
    else w
  w.touchEnd h

/-- `emplace` with an available block. -/
def emplaceAvailable (h : HiveId) (c : ControlId) (b : BlockId) (v : α) : HiveM α Iterator := do
  let index := ((← get).block b).emplaceIndex
  tryCatch (mayThrow env .element) fun e => do
    modify (·.modifyBlock b Block.emplaceFailed)
    throw e
  modify fun w => commitAvailable w h c b v
  return .at b index

/-- Puts the first element in a block that is not active. -/
def activate (w : World α) (h : HiveId) (c : ControlId) (b : BlockId) (v : α) : World α :=
  let w := w.modifyBlock b (·.emplaceFirst v)
  let w := w.activeAppend c b
  let w := if (w.block b).highWater ≠ (w.block b).capacity then w.availableAdd c b else w
  let w := w.modifyControl c fun k => { k with size := k.size + 1 }
  w.touchEnd h

/-- Takes the first block off the reserved list. -/
def takeReserved (w : World α) (c : ControlId) (b : BlockId) : World α :=
  { w.modifyControl c ({ · with reservedHead := w.reservedNext b }) with
    reservedNext := Function.update w.reservedNext b none }

/-- `emplace` with a reserved block. -/
def emplaceReserved (h : HiveId) (c : ControlId) (b : BlockId) (v : α) : HiveM α Iterator := do
  tryCatch (mayThrow env .element) fun e => do
    modify (·.modifyBlock b (·.setSlot 0 .raw))
    throw e
  modify fun w => activate (takeReserved w c b) h c b v
  return .at b 0

/-- `emplace` with a new block. -/
def emplaceNew (h : HiveId) (v : α) : HiveM α Iterator := do
  let w ← get
  let limits := (w.container h).limits
  let current := w.capacity h
  let maximum := maxSize env w h
  let blockMax := allocationBlockMax w h
  if limits.min = 0 ∨ blockMax < limits.min ∨ current > maximum ∨ limits.min > maximum - current then
    throw (.lengthError "std::hive::emplace exceeds max_size")
  else
    let blockCapacity := min (min (max limits.min current) blockMax) (maximum - current)
    let newControl := (w.container h).control.isNone
    let c ← controlOrNew env h
    let b ← tryCatch (allocateBlock env c blockCapacity) fun e => do
      modify (dropNewControl newControl c)
      throw e
    tryCatch (mayThrow env .element) fun e => do
      modify fun w => dropNewControl newControl c (w.deallocateBlock b)
      throw e
    modify fun w =>
      let w := attachNewControl newControl h c w
      let w := w.modifyControl c fun k => { k with capacity := k.capacity + (w.block b).capacity }
      activate w h c b v
    return .at b 0

def emplace (h : HiveId) (v : α) : HiveM α Iterator := do
  let w ← get
  match (w.container h).control with
  | none => emplaceNew env h v
  | some c =>
    match (w.control c).availableHead with
    | some b => emplaceAvailable env h c b v
    | none =>
      match (w.control c).reservedHead with
      | some b => emplaceReserved env h c b v
      | none => emplaceNew env h v

/-- `append_input`. -/
def appendInput (h : HiveId) : List α → HiveM α Unit
  | [] => pure ()
  | v :: values => do
    let _ ← emplace env h v
    appendInput h values

/-- `assign_input`: the epoch of the end is restored. -/
def assign (h : HiveId) (values : List α) : HiveM α Unit := do
  let savedEpoch := ((← get).container h).endEpoch
  modify (·.clearWithoutEndInvalidation h)
  tryCatch (appendInput env h values) fun e => do
    modify (·.modifyContainer h ({ · with endEpoch := savedEpoch }))
    throw e
  modify (·.modifyContainer h ({ · with endEpoch := savedEpoch }))

/-! ## Exchanging storage -/

/-- Sets the owner of a control, if there is one. -/
def setOwner (w : World α) (control : Option ControlId) (h : HiveId) : World α :=
  match control with
  | some c => w.modifyControl c ({ · with owner := h })
  | none => w

def swap (w : World α) (h other : HiveId) : World α :=
  if h = other then w
  else
    let left := w.container h
    let right := w.container other
    let w := w.modifyContainer h fun k =>
      { k with
        alloc := if env.pocs then right.alloc else k.alloc
        control := right.control
        limits := right.limits }
    let w := w.modifyContainer other fun k =>
      { k with
        alloc := if env.pocs then left.alloc else k.alloc
        control := left.control
        limits := left.limits }
    let w := setOwner w right.control h
    let w := setOwner w left.control other
    (w.touchEnd h).touchEnd other

/-- The check of `splice`: the total capacity of the blocks from `b?` on, if all of
them are within the limits. -/
def spliceCheck (w : World α) (limits : Limits) : ℕ → Option BlockId → ℕ → Option ℕ
  | 0, _, total => some total
  | _ + 1, none, total => some total
  | fuel + 1, some b, total =>
    if within limits (w.block b).capacity then
      spliceCheck w limits fuel (w.activeLinks.next b) (total + (w.block b).capacity)
    else none

/-- The body of the loop of `splice`: the block `b` goes to the control `d`. -/
def spliceBlock (w : World α) (d : ControlId) (b : BlockId) : World α :=
  let available := w.inAvailable b
  let w := { w.modifyControl d (fun k => { k with nextBlockOrder := k.nextBlockOrder + 1 }) with
    availableLinks := w.availableLinks.put b none none
    inAvailable := Function.update w.inAvailable b false
    blockControl := Function.update w.blockControl b d
    order := Function.update w.order b (w.control d).nextBlockOrder }
  if available then w.availableAdd d b else w

/-- The loop of `splice` that moves the blocks from `b?` on to the control `d`. -/
def spliceFrom (d : ControlId) : ℕ → Option BlockId → World α → World α
  | 0, _, w => w
  | _ + 1, none, w => w
  | fuel + 1, some b, w =>
    let w := spliceBlock w d b
    spliceFrom d fuel (w.activeLinks.next b) w

/-- The first part of the commit of `splice`: joins the active list of `s` to the end
of that of `d`. -/
def spliceJoin (w : World α) (s d : ControlId) : World α :=
  let first := (w.control s).activeHead
  let last := (w.control s).activeTail
  let tail := (w.control d).activeTail
  { w.modifyControl d (fun k =>
      { k with activeHead := if tail.isNone then first else k.activeHead, activeTail := last }) with
    activeLinks :=
      ((w.activeLinks.setNextOf tail first).setPrevOf first tail).setNextOf last none }

/-- The commit of `splice`: the active blocks of `s` go behind those of `d`. -/
def spliceCommit (w : World α) (s d : ControlId) (activeCapacity : ℕ) : World α :=
  let first := (w.control s).activeHead
  let movedSize := (w.control s).size
  let w := spliceJoin w s d
  let w := spliceFrom d w.nextBlock first w
  let w := w.modifyControl s fun k =>
    { k with
      activeHead := none, activeTail := none, availableHead := none, size := 0
      capacity := k.capacity - activeCapacity }
  w.modifyControl d fun k =>
    { k with size := k.size + movedSize, capacity := k.capacity + activeCapacity }

def splice (h source : HiveId) : HiveM α Unit := do
  if h = source then pure ()
  else
    let w ← get
    match (w.container source).control with
    | none => modify fun w => (w.touchEnd h).touchEnd source
    | some s =>
      if (w.control s).activeHead = none then modify fun w => (w.touchEnd h).touchEnd source
      else
        match spliceCheck w (w.container h).limits w.nextBlock (w.control s).activeHead 0 with
        | none => throw (.lengthError "std::hive::splice block outside current limits")
        | some activeCapacity =>
          if (w.container h).control = none ∧ (w.control s).reservedHead = none then
            modify fun w =>
              let w := w.modifyContainer h ({ · with control := some s })
              let w := w.modifyContainer source ({ · with control := none })
              let w := w.modifyControl s ({ · with owner := h })
              (w.touchEnd h).touchEnd source
          else
            let newControl := (w.container h).control.isNone
            let d ← controlOrNew env h
            modify fun w =>
              let w := attachNewControl newControl h d (spliceCommit w s d activeCapacity)
              (w.touchEnd h).touchEnd source

/-! ## Rebuilding -/

/-- The loop of `append_move_to`. The element at `it` is moved from when its
constructor is reached. -/
def appendMoveTo (destination : HiveId) (last : Iterator) : ℕ → Iterator → HiveM α Unit
  | 0, _ => pure ()
  | fuel + 1, it =>
    if World.same it last then pure ()
    else do
      match (← get).value it with
      | none => pure ()
      | some v =>
        let _ ← tryCatch (emplace env destination v) fun e => do
          modify fun w => if e = .element then w.assignAt it (env.partlyMoved v) else w
          throw e
        modify (·.assignAt it (env.moved v))
      let w ← get
      appendMoveTo destination last fuel (w.next it)

/-- The life of the local `rebuilt`: `prepare` allocates its blocks, then all
elements move over, the hives are swapped, and the destructor runs in any case. -/
def rebuild (h : HiveId) (limits : Limits) (prepare : HiveM α Unit) : HiveM α Unit := do
  validateLimits env limits
  let alloc := ((← get).container h).alloc
  modify (·.modifyContainer .rebuilt fun _ => { alloc := alloc, limits := limits })
  tryCatch (do
      prepare
      let w ← get
      appendMoveTo env .rebuilt (w.last h) (w.size h + 1) (w.first h)
      modify fun w => swap env w h .rebuilt) fun e => do
    modify (·.releaseStorage .rebuilt)
    throw e
  modify (·.releaseStorage .rebuilt)

def shrinkToFit (h : HiveId) : HiveM α Unit := do
  modify (·.trimCapacity h)
  let w ← get
  if w.capacity h = w.size h ∨ w.size h = 0 then pure ()
  else
    match planCapacity env w h 0 (w.size h) with
    | none => pure ()
    | some plan =>
      if plan.added ≥ w.capacity h then pure ()
      else
        rebuild env h (w.container h).limits
          (reserveBlocks env .rebuilt plan.blockMax plan.blocks plan.added)

/-- The first loop of `reshape`: whether an active block is outside of the limits. -/
def needsRebuild (w : World α) (limits : Limits) : ℕ → Option BlockId → Bool
  | 0, _ => false
  | _ + 1, none => false
  | fuel + 1, some b =>
    if within limits (w.block b).capacity then
      needsRebuild w limits fuel (w.activeLinks.next b)
    else true

/-- Writes `*link`, which is `reserved_head` or the `reserved_next` of a block. -/
def setLink (w : World α) (c : ControlId) (link : Option BlockId) (x : Option BlockId) : World α :=
  match link with
  | none => w.modifyControl c ({ · with reservedHead := x })
  | some b => { w with reservedNext := Function.update w.reservedNext b x }

/-- Reads `*link`. -/
def getLink (w : World α) (c : ControlId) (link : Option BlockId) : Option BlockId :=
  match link with
  | none => (w.control c).reservedHead
  | some b => w.reservedNext b

/-- The second loop of `reshape`: drops the reserved blocks outside of the limits. -/
def dropReserved (c : ControlId) (limits : Limits) : ℕ → Option BlockId → World α → World α
  | 0, _, w => w
  | fuel + 1, link, w =>
    match getLink w c link with
    | none => w
    | some b =>
      if within limits (w.block b).capacity then dropReserved c limits fuel (some b) w
      else
        let w := setLink w c link (w.reservedNext b)
        let w := w.modifyControl c fun k => { k with capacity := k.capacity - (w.block b).capacity }
        dropReserved c limits fuel link (w.deallocateBlock b)

def reshape (h : HiveId) (limits : Limits) : HiveM α Unit := do
  validateLimits env limits
  let w ← get
  match (w.container h).control with
  | none => modify (·.modifyContainer h ({ · with limits := limits }))
  | some c =>
    if needsRebuild w limits w.nextBlock (w.control c).activeHead then
      rebuild env h limits (reserve env .rebuilt (w.size h))
    else
      modify fun w =>
        (dropReserved c limits w.nextBlock none w).modifyContainer h ({ · with limits := limits })

end

end CCForge.Hive
