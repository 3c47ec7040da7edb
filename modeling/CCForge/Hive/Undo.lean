import CCForge.Hive.Insertion

/-!
# Insertions that throw

Whatever `emplace` has allocated is released before an exception leaves it, and nothing that
existed before has changed but bytes that hold neither an element nor a free run.
-/

namespace CCForge.Hive

open World Effect

namespace Block

variable {α : Type*} {k k' : Block α} {fl : List ℕ}

/-- The blocks agree in everything but the bytes above `high_water`. -/
structure SameUsed (k k' : Block α) : Prop where
  capacity : k'.capacity = k.capacity
  liveCount : k'.liveCount = k.liveCount
  highWater : k'.highWater = k.highWater
  freeHead : k'.freeHead = k.freeHead
  skip : k'.skip = k.skip
  slots : ∀ i < k.highWater, k'.slots i = k.slots i

theorem SameUsed.refl : SameUsed k k := ⟨rfl, rfl, rfl, rfl, rfl, fun _ _ => rfl⟩

theorem sameUsed_setSlot {i : ℕ} (hi : k.highWater ≤ i) (slot : Slot α) :
    SameUsed k (k.setSlot i slot) :=
  ⟨rfl, rfl, rfl, rfl, rfl, fun _ hj => Function.update_of_ne (Nat.ne_of_lt (hj.trans_le hi)) _ _⟩

theorem Ok.sameUsed_emplaceFailed (h : k.Ok fl) : SameUsed k k.emplaceFailed := by
  obtain he | ⟨-, he⟩ := emplaceFailed_eq h
  · rw [he]
    exact .refl
  · rw [he]
    exact sameUsed_setSlot le_rfl _

end Block

variable {α : Type} {env : Env α} {w w' u : World α} {h : HiveId} {c : ControlId} {b : BlockId}
  {v : α}

/-- The lists and the control of a block are the same. -/
structure SamePlace (w w' : World α) (b : BlockId) : Prop where
  control : w'.blockControl b = w.blockControl b
  order : w'.order b = w.order b
  active : w'.active b = w.active b
  inAvailable : w'.inAvailable b = w.inAvailable b
  activeLinks : w.activeLinks.SameAt w'.activeLinks b
  availableLinks : w.availableLinks.SameAt w'.availableLinks b
  reservedNext : w'.reservedNext b = w.reservedNext b

theorem SamePlace.rfl : SamePlace w w b :=
  ⟨Eq.refl _, Eq.refl _, Eq.refl _, Eq.refl _, .rfl, .rfl, Eq.refl _⟩

/-- Every object that existed before is as it was, and nothing else is allocated. -/
structure Undone (w w' : World α) : Prop where
  container : w'.container = w.container
  control : ∀ k < w.nextControl, w'.control k = w.control k
  block : ∀ x < w.nextBlock, (w.block x).SameUsed (w'.block x)
  place : ∀ x < w.nextBlock, SamePlace w w' x
  heap : w'.heap = w.heap
  nextBlock : w.nextBlock ≤ w'.nextBlock
  nextControl : w.nextControl ≤ w'.nextControl

/-- Only objects that do not exist any more have been added. -/
structure Unaltered (w w' : World α) : Prop where
  silent : Silent w w'
  heap : w'.heap = w.heap

theorem Unaltered.undone (hu : Unaltered w w') : Undone w w' := by
  have hsame : ∀ x < w.nextBlock, SameBlock w w' x := fun x hx =>
    hu.silent.loc.block x hx fun he => he
  refine ⟨hu.silent.container, fun k hk => hu.silent.loc.control k hk fun he => he,
    fun x hx => ?_, fun x hx => ?_, hu.heap, hu.silent.loc.nextBlock, hu.silent.loc.nextControl⟩
  · rw [(hsame x hx).block]
    exact .refl
  · have hs := hsame x hx
    exact ⟨hs.control, hs.order, hs.active, hs.inAvailable, hs.activeLinks, hs.availableLinks,
      hs.reservedNext⟩

theorem unaltered_tick : Unaltered w (tick w) := ⟨silent_tick, rfl⟩

theorem Unaltered.refl : Unaltered w w := ⟨.refl, rfl⟩

/-- Objects that do not exist yet have no memory. -/
def NoneFresh (w : World α) : Prop := ∀ a, Fresh w a → w.heap a = false

theorem Fresh.of_le {a : Allocation} (ha : Fresh w' a) (hb : w.nextBlock ≤ w'.nextBlock)
    (hc : w.nextControl ≤ w'.nextControl) : Fresh w a := by
  cases a with
  | control c => exact hc.trans ha
  | block b => exact hb.trans ha
  | slots b => exact hb.trans ha
  | skip b => exact hb.trans ha

/-! ## Allocation -/

/-- The store after a control has been allocated for `h`. -/
def withControl (w : World α) (h : HiveId) : World α :=
  let w' := tick (setHeap (tick w) (.control w.nextControl) true)
  { w'.modifyControl w.nextControl (fun _ => { owner := h }) with
    nextControl := w.nextControl + 1 }

/-- The columns that a new control changes or that its hive depends on. -/
structure NewControl (w u : World α) (h : HiveId) : Prop where
  container : u.container = w.container
  control : u.control = Function.update w.control w.nextControl { owner := h }
  block : u.block = w.block
  blockControl : u.blockControl = w.blockControl
  reservedNext : u.reservedNext = w.reservedNext
  nextBlock : u.nextBlock = w.nextBlock
  nextControl : u.nextControl = w.nextControl + 1
  heap : ∀ a, a ≠ .control w.nextControl → u.heap a = w.heap a

theorem newControl_withControl : NewControl w (withControl w h) h := by
  refine ⟨?_, ?_, ?_, ?_, ?_, ?_, ?_, fun a ha => ?_⟩
  · simp only [withControl, tick, setHeap, World.modifyControl]
  · simp only [withControl, tick, setHeap, World.modifyControl]
  · simp only [withControl, tick, setHeap, World.modifyControl]
  · simp only [withControl, tick, setHeap, World.modifyControl]
  · simp only [withControl, tick, setHeap, World.modifyControl]
  · simp only [withControl, tick, setHeap, World.modifyControl]
  · simp only [withControl, tick, setHeap, World.modifyControl]
  · simp only [withControl, tick, setHeap, World.modifyControl]
    rw [Function.update_of_ne ha]

theorem update_released {a : Allocation} {heap : Allocation → Bool} (ha : heap a = false) :
    Function.update (Function.update heap a true) a false = heap := by
  rw [Function.update_idem, ← ha, Function.update_eq_self]

/-- The control is there or new, or its allocation has failed. -/
theorem controlOrNew_ends (hf : NoneFresh w) : Ends (controlOrNew env h) w
    (fun c u => (w.container h).control = some c ∧ u = w ∨
      (w.container h).control = none ∧ c = w.nextControl ∧ u = withControl w h)
    (fun _ u => (w.container h).control = none ∧ Unaltered w u) := by
  simp only [controlOrNew, ends_bind, ends_get]
  cases hc : (w.container h).control with
  | some c =>
    simp only [ends_pure]
    exact .inl ⟨trivial, trivial⟩
  | none =>
    have hfresh : Fresh w (.control w.nextControl) := le_refl w.nextControl
    simp only [allocateControl, ends_bind, ends_get, ends_allocate, ends_tryCatch, ends_mayThrow,
      ends_modify, ends_throw, ends_pure, release_eq]
    split
    · exact ⟨trivial, unaltered_tick⟩
    · split
      · exact ⟨trivial, ((silent_tick.setHeap hfresh).trans silent_tick).setHeap hfresh,
          update_released (hf _ hfresh)⟩
      · exact .inr ⟨trivial, trivial, rfl⟩

/-- The store after a block has been allocated for the control `c`. -/
def withBlock (env : Env α) (w : World α) (c : ControlId) (capacity : ℕ) : World α :=
  let b := w.nextBlock
  let w := setHeap (tick w) (.block b) true
  let w := setHeap (tick w) (.slots b) true
  let w := tick (setHeap (tick w) (.skip b) true)
  { w with
    block := Function.update w.block b
      { capacity := capacity, skip := env.uninitialised b, slots := fun _ => .raw }
    blockControl := Function.update w.blockControl b c
    order := Function.update w.order b 0
    active := Function.update w.active b false
    inAvailable := Function.update w.inAvailable b false
    activeLinks := w.activeLinks.put b none none
    availableLinks := w.availableLinks.put b none none
    reservedNext := Function.update w.reservedNext b none
    nextBlock := b + 1 }

/-- The block is new, or one of its allocations or its construction has failed. -/
theorem allocateBlock_ends (hf : NoneFresh w) (capacity : ℕ) :
    Ends (allocateBlock env c capacity) w
      (fun b u => b = w.nextBlock ∧ u = withBlock env w c capacity) (fun _ u => Unaltered w u) := by
  have hblock : w.heap (.block w.nextBlock) = false := hf _ (le_refl w.nextBlock)
  have hslots : w.heap (.slots w.nextBlock) = false := hf _ (le_refl w.nextBlock)
  have hskip : w.heap (.skip w.nextBlock) = false := hf _ (le_refl w.nextBlock)
  refine ((allocateBlock_spec capacity).and ?_).mono (fun _ _ hu => hu.2) fun _ _ hu =>
    ⟨hu.1, hu.2⟩
  simp only [allocateBlock, ends_bind, ends_get, ends_allocate, ends_tryCatch, ends_mayThrow,
    ends_modify, ends_throw, ends_pure, release_eq]
  split
  · rfl
  · split
    · exact update_released hblock
    · split
      · simp only [setHeap, tick]
        rw [update_released (by simp [hslots]), update_released hblock]
      · split
        · simp only [setHeap, tick]
          rw [update_released (by simp [hskip]), update_released (by simp [hslots]),
            update_released hblock]
        · exact ⟨trivial, rfl⟩

/-! ## The ways of `emplace` -/

theorem noneFresh_withControl (hf : NoneFresh w) : NoneFresh (withControl w h) := by
  intro a ha
  have hnew : NewControl w (withControl w h) h := newControl_withControl
  generalize withControl w h = u at ha hnew ⊢
  have hold : Fresh w a := by
    apply ha.of_le hnew.nextBlock.ge
    rw [hnew.nextControl]
    exact Nat.le_succ _
  rw [hnew.heap, hf a hold]
  rintro rfl
  have hle : u.nextControl ≤ w.nextControl := ha
  rw [hnew.nextControl] at hle
  exact Nat.not_succ_le_self _ hle

/-- The control for a call, as `controlOrNew` gives it. -/
def ControlFor (w u : World α) (h : HiveId) (c : ControlId) : Prop :=
  (w.container h).control = some c ∧ u = w ∨
    (w.container h).control = none ∧ c = w.nextControl ∧ u = withControl w h

theorem ControlFor.noneFresh (hc : ControlFor w u h c) (hf : NoneFresh w) : NoneFresh u := by
  obtain ⟨-, rfl⟩ | ⟨-, -, rfl⟩ := hc
  · exact hf
  · exact noneFresh_withControl hf

/-- A control that was allocated for the call is released. -/
theorem ControlFor.drop (hc : ControlFor w u h c) (hf : NoneFresh w) (hs : Silent w u)
    (hu : Unaltered u w') :
    Unaltered w (dropNewControl (w.container h).control.isNone c w') := by
  obtain ⟨hsome, rfl⟩ | ⟨hnone, rfl, rfl⟩ := hc
  · rw [hsome]
    exact hu
  · rw [hnone]
    have hfresh : Fresh w (.control w.nextControl) := le_refl w.nextControl
    refine ⟨(hs.trans hu.silent).setHeap hfresh, ?_⟩
    change Function.update w'.heap _ false = w.heap
    rw [hu.heap]
    exact update_released (hf _ hfresh)

/-- A block that was allocated for the call is released. -/
theorem unaltered_deallocateBlock (hf : NoneFresh w) {capacity : ℕ}
    (hs : Silent w (withBlock env w c capacity)) :
    Unaltered w ((tick (withBlock env w c capacity)).deallocateBlock w.nextBlock) := by
  refine ⟨(hs.trans silent_tick).deallocateBlock le_rfl, funext fun a => ?_⟩
  simp only [World.deallocateBlock, World.release, withBlock, tick, setHeap]
  by_cases hblock : a = .block w.nextBlock
  · rw [hblock, Function.update_self]
    exact (hf (.block w.nextBlock) (le_refl w.nextBlock)).symm
  · rw [Function.update_of_ne hblock]
    by_cases hslots : a = .slots w.nextBlock
    · rw [hslots, Function.update_self]
      exact (hf (.slots w.nextBlock) (le_refl w.nextBlock)).symm
    · rw [Function.update_of_ne hslots]
      by_cases hskip : a = .skip w.nextBlock
      · rw [hskip, Function.update_self]
        exact (hf (.skip w.nextBlock) (le_refl w.nextBlock)).symm
      · rw [Function.update_of_ne hskip, Function.update_of_ne hskip,
          Function.update_of_ne hslots, Function.update_of_ne hblock]

theorem emplaceNew_unaltered (hi : Inv w) (hf : NoneFresh w) :
    Ends (emplaceNew env h v) w (fun _ _ => True) (fun _ w' => Unaltered w w') := by
  simp only [emplaceNew, ends_bind, ends_get]
  split
  · exact .refl
  · simp only [ends_bind, ends_tryCatch, ends_mayThrow, ends_modify, ends_throw, ends_pure]
    refine ((controlOrNew_spec hi).and (controlOrNew_ends hf)).mono ?_ (fun _ _ hu => hu.2.2)
    rintro c u ⟨⟨S, hc⟩, hfor⟩
    have hfor : ControlFor w u h c := hfor
    have hfu := hfor.noneFresh hf
    refine ((allocateBlock_spec _).and (allocateBlock_ends hfu _)).mono ?_ ?_
    · rintro b u₁ ⟨hb, rfl, rfl⟩
      split
      · exact hfor.drop hf hc.silent (unaltered_deallocateBlock hfu hb.silent)
      · trivial
    · rintro e u₁ ⟨-, hu₁⟩
      exact hfor.drop hf hc.silent hu₁

/-- Bytes of one block that nobody uses have changed. -/
theorem undone_modifyBlock {f : Block α → Block α} (hf : (w.block b).SameUsed (f (w.block b))) :
    Undone w ((tick w).modifyBlock b f) := by
  refine ⟨rfl, fun _ _ => rfl, fun x _ => ?_, fun _ _ => ⟨rfl, rfl, rfl, rfl, .rfl, .rfl, rfl⟩,
    rfl, le_rfl, le_rfl⟩
  by_cases hx : x = b
  · subst hx
    rw [modifyBlock_self]
    exact hf
  · rw [modifyBlock_other _ hx]
    exact .refl

theorem emplaceAvailable_undone (hi : Inv w) (hc : (w.container h).control = some c)
    (hb : (w.control c).availableHead = some b) :
    Ends (emplaceAvailable env h c b v) w (fun _ _ => True) (fun _ w' => Undone w w') := by
  simp only [emplaceAvailable, ends_bind, ends_get, ends_tryCatch, ends_mayThrow, ends_modify,
    ends_throw, ends_pure]
  split
  · obtain ⟨S, hS⟩ := hi h c hc
    have hL := hS.represents.lists
    have hmem : b ∈ S.available := List.mem_of_head? (by rw [← hL.available.head, hb])
    obtain ⟨⟨fl, hok⟩, -⟩ := hS.represents.filled.active b (hL.available.sub b hmem)
    exact undone_modifyBlock hok.sameUsed_emplaceFailed
  · trivial

theorem emplaceReserved_undone (hi : Inv w) (hc : (w.container h).control = some c)
    (hb : (w.control c).reservedHead = some b) :
    Ends (emplaceReserved env h c b v) w (fun _ _ => True) (fun _ w' => Undone w w') := by
  simp only [emplaceReserved, ends_bind, ends_tryCatch, ends_mayThrow, ends_modify, ends_throw,
    ends_pure]
  split
  · obtain ⟨S, hS⟩ := hi h c hc
    have hhead := hS.represents.lists.reserved.chain.head
    have hmem : b ∈ S.reserved := List.mem_of_head? (by rw [← hhead, hb])
    have hvacant := (hS.represents.filled.reserved b hmem).highWater
    exact undone_modifyBlock (Block.sameUsed_setSlot hvacant.le _)
  · trivial

/-- `emplace` inserts an element or undoes all that it did. -/
theorem emplace_undone (hi : Inv w) (hf : NoneFresh w) :
    Ends (emplace env h v) w (fun _ _ => True) (fun _ w' => Undone w w') := by
  have hnew : Ends (emplaceNew env h v) w (fun _ _ => True) (fun _ w' => Undone w w') :=
    (emplaceNew_unaltered hi hf).mono (fun _ _ ht => ht) fun _ _ hu => hu.undone
  simp only [emplace, ends_bind, ends_get]
  split
  · exact hnew
  · next c hc =>
    split
    · next b hb => exact emplaceAvailable_undone hi hc hb
    · split
      · next b hb => exact emplaceReserved_undone hi hc hb
      · exact hnew

end CCForge.Hive
