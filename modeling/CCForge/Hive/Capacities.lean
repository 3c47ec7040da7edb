import CCForge.Hive.Ownership

/-!
# The capacities of the blocks

Every operation keeps each block accounted for and within the limits of its hive. Limits and
blocks travel together in `swap` and in moves; `splice` and `reshape` check the blocks that
stay.
-/

namespace CCForge.Hive

namespace Block

variable {α : Type*} {k : Block α}

theorem emplaceCommit_capacity (v : α) : (k.emplaceCommit v).capacity = k.capacity := by
  unfold emplaceCommit
  simp only
  split
  · split
    · exact (unlinkFreeRun_same _ _).capacity
    · exact (moveFreeRun_same _ _ _).capacity
  · rfl

theorem eraseLast_capacity (i : ℕ) : (k.eraseLast i).capacity = k.capacity := by
  unfold eraseLast
  simp only
  split
  · exact (unlinkFreeRun_same _ _).capacity
  · rfl

theorem eraseInner_capacity (i : ℕ) : (k.eraseInner i).capacity = k.capacity := by
  unfold eraseInner
  generalize (if i = 0 then 0 else k.skip (i - 1)) = left
  simp only
  split
  · exact (moveFreeRun_same _ _ _).capacity
  · split
    · rfl
    · split
      · exact (moveFreeRun_same _ _ _).capacity
      · exact (unlinkFreeRun_same _ _).capacity

theorem erase_capacity (i : ℕ) : (k.erase i).capacity = k.capacity := by
  unfold erase
  simp only
  split
  · exact eraseLast_capacity i
  · exact eraseInner_capacity i

end Block

open World Effect

variable {α : Type} {env : Env α} {w w' u v : World α} {h other : HiveId} {c d : ControlId}
  {S : Shape} {b x : BlockId} {limits : Limits} {capacity : ℕ} {value : α}

/-- The state that an operation leaves, seen from the state before it. -/
structure KeepsTight (w w' : World α) : Prop where
  tight : Tight w'
  limits : ∀ y, (w'.container y).limits = (w.container y).limits

theorem KeepsTight.trans (hk : KeepsTight w u) (hk' : KeepsTight u v) : KeepsTight w v :=
  ⟨hk'.tight, fun y => (hk'.limits y).trans (hk.limits y)⟩

theorem SameOwners.keeps (hs : SameOwners w w') (ht : Tight w) : KeepsTight w w' :=
  ⟨hs.tight ht, hs.limits⟩

theorem Undone.keeps (hu : Undone w w') (hi : Inv w) (ht : Tight w) : KeepsTight w w' :=
  ⟨hu.tight hi ht, fun y => by rw [hu.container]⟩

/-! ## Erasure -/

theorem same_eraseElement (i : ℕ) : SameOwners w (w.eraseElement c b i) :=
  (same_modifyBlock (Block.erase_capacity i)).trans (same_modifyControl rfl)

theorem same_eraseRelist : SameOwners w (w.eraseRelist c b) := by
  unfold World.eraseRelist
  split
  · exact ((same_availableRemove.trans same_activeRemove).trans
      (same_modifyBlock rfl)).trans same_reservedPush
  · split
    · exact .refl
    · exact same_availableAdd

theorem same_erase (it : Iterator) : SameOwners w (w.erase h it).2 := by
  unfold World.erase
  split
  · simp only
    split
    · exact ((same_eraseElement _).trans same_eraseRelist).trans same_touchEnd
    · exact (same_eraseElement _).trans same_eraseRelist
  · exact .refl

theorem same_eraseWhile (continues : Iterator → Bool) (fuel : ℕ) (it : Iterator) :
    SameOwners w (eraseWhile h continues fuel it w) := by
  induction fuel generalizing w it with
  | zero => exact .refl
  | succ fuel ih =>
    rw [eraseWhile]
    split
    · exact (same_erase it).trans (ih _)
    · exact .refl

theorem same_eraseRange (first last : Iterator) : SameOwners w (w.eraseRange h first last).2 := by
  unfold World.eraseRange
  split
  · exact same_eraseWhile _ _ _
  · exact same_eraseWhile _ _ _

/-! ## Clearing -/

theorem same_clearBlock : SameOwners w (w.clearBlock c b) := by
  have hb := same_modifyBlock (w := w) (b := b)
    (f := fun k => k.destroyLiveElements.resetVacantBlock) (Block.destroyFrom_capacity _ _)
  have hs : SameOwners (w.modifyBlock b fun k => k.destroyLiveElements.resetVacantBlock)
      { w.modifyBlock b (fun k => k.destroyLiveElements.resetVacantBlock) with
        active := Function.update w.active b false
        activeLinks := w.activeLinks.put b none none
        availableLinks := w.availableLinks.put b none none
        inAvailable := Function.update w.inAvailable b false } :=
    .of_container ⟨rfl, fun _ => rfl, rfl, rfl, rfl, fun _ => rfl⟩ rfl
  exact (hb.trans hs).trans same_reservedPush

theorem same_clearFrom (fuel : ℕ) (start : Option BlockId) :
    SameOwners w (clearFrom c fuel start w) := by
  induction fuel generalizing w start with
  | zero => exact .refl
  | succ fuel ih =>
    cases start with
    | none => exact .refl
    | some b => exact same_clearBlock.trans (ih _)

theorem same_clearWithoutEndInvalidation : SameOwners w (w.clearWithoutEndInvalidation h) := by
  unfold World.clearWithoutEndInvalidation
  split
  · exact .refl
  · exact (same_clearFrom _ _).trans (same_modifyControl rfl)

theorem same_clear : SameOwners w (w.clear h) :=
  same_clearWithoutEndInvalidation.trans same_touchEnd

/-! ## Insertion -/

theorem same_commitAvailable : SameOwners w (commitAvailable w h c b value) := by
  have hs : SameOwners w ((w.modifyBlock b (·.emplaceCommit value)).modifyControl c fun k =>
      { k with size := k.size + 1 }) :=
    (same_modifyBlock (Block.emplaceCommit_capacity value)).trans (same_modifyControl rfl)
  unfold commitAvailable
  simp only
  split
  · exact (hs.trans same_availableRemove).trans same_touchEnd
  · exact hs.trans same_touchEnd

theorem same_activate : SameOwners w (activate w h c b value) := by
  have hs : SameOwners w ((w.modifyBlock b (·.emplaceFirst value)).activeAppend c b) :=
    (same_modifyBlock rfl).trans same_activeAppend
  unfold activate
  simp only
  split
  · exact ((hs.trans same_availableAdd).trans (same_modifyControl rfl)).trans same_touchEnd
  · exact (hs.trans (same_modifyControl rfl)).trans same_touchEnd

theorem same_assignAt (it : Iterator) : SameOwners w (w.assignAt it value) := by
  unfold World.assignAt
  split
  · exact .refl
  · exact same_modifyBlock rfl

/-! ## A new block -/

/-- The block `u.nextBlock` of the control `c` has been allocated. -/
structure Extended (u t : World α) (c : ControlId) (capacity : ℕ) : Prop where
  container : t.container = u.container
  control : t.control = u.control
  nextBlock : t.nextBlock = u.nextBlock + 1
  nextControl : t.nextControl = u.nextControl
  blockControl : t.blockControl = Function.update u.blockControl u.nextBlock c
  new : (t.block u.nextBlock).capacity = capacity
  old : ∀ b < u.nextBlock, t.block b = u.block b
  heapNew : t.heap (.block u.nextBlock) = true
  heap : ∀ a, a ≠ .block u.nextBlock → a ≠ .slots u.nextBlock → a ≠ .skip u.nextBlock →
    t.heap a = u.heap a

theorem extended_withBlock : Extended u (withBlock env u c capacity) c capacity := by
  refine ⟨?_, ?_, ?_, ?_, ?_, ?_, fun b hb => ?_, ?_, fun a hb hs hk => ?_⟩
  · simp only [withBlock, tick, setHeap]
  · simp only [withBlock, tick, setHeap]
  · simp only [withBlock, tick, setHeap]
  · simp only [withBlock, tick, setHeap]
  · simp only [withBlock, tick, setHeap]
  · simp only [withBlock, tick, setHeap, Function.update_self]
  · simp only [withBlock, tick, setHeap]
    rw [Function.update_of_ne (Nat.ne_of_lt hb)]
  · simp [withBlock, tick, setHeap]
  · simp only [withBlock, tick, setHeap]
    rw [Function.update_of_ne hk, Function.update_of_ne hs, Function.update_of_ne hb]

theorem Extended.noneFresh {t : World α} (hx : Extended u t c capacity) (hf : NoneFresh u) :
    NoneFresh t := by
  intro a ha
  have hold : Fresh u a := ha.of_le (hx.nextBlock ▸ Nat.le_succ _) hx.nextControl.ge
  have hnot : ¬t.nextBlock ≤ u.nextBlock := by
    rw [hx.nextBlock]
    exact Nat.not_succ_le_self _
  rw [hx.heap, hf a hold]
  · rintro rfl
    exact hnot ha
  · rintro rfl
    exact hnot ha
  · rintro rfl
    exact hnot ha

theorem attachNewControl_columns (n : Bool) (t : World α) :
    (attachNewControl n h c t).blockControl = t.blockControl ∧
      (attachNewControl n h c t).block = t.block ∧ (attachNewControl n h c t).heap = t.heap ∧
      (attachNewControl n h c t).nextBlock = t.nextBlock ∧
      (attachNewControl n h c t).nextControl = t.nextControl ∧
      (attachNewControl n h c t).control = t.control := by
  unfold attachNewControl
  split
  · exact ⟨rfl, rfl, rfl, rfl, rfl, rfl⟩
  · exact ⟨rfl, rfl, rfl, rfl, rfl, rfl⟩

theorem attachNewControl_other (n : Bool) (t : World α) {y : HiveId} (hy : y ≠ h) :
    (attachNewControl n h c t).container y = t.container y := by
  unfold attachNewControl
  split
  · exact Function.update_of_ne hy _ _
  · rfl

theorem ControlFor.known (hf : ControlFor w u h c) {k : ControlId}
    (hk : (w.container h).control = some k) : k = c := by
  obtain ⟨hc, -⟩ | ⟨hc, -⟩ := hf
  · exact Option.some.inj (hk.symm.trans hc)
  · exact absurd (hk.symm.trans hc) (Option.some_ne_none k)

/-- The new block counts, and the control is attached. -/
theorem Extended.grown {t : World α} (hx : Extended u t c capacity) (hf : ControlFor w u h c)
    (hu : u.container = w.container) (hn : NoneFresh u) :
    Grown u ((attachNewControl (w.container h).control.isNone h c t).modifyControl c fun k =>
      { k with capacity := k.capacity + capacity }) h c capacity := by
  have hself := attachNewControl_control t (fun k hk => hf.known hk) (hx.container.trans hu)
  have hother := fun y (hy : y ≠ h) =>
    attachNewControl_other (c := c) (w.container h).control.isNone t hy
  have hlimits : ∀ y, ((attachNewControl (w.container h).control.isNone h c t).container y).limits =
      (t.container y).limits := by
    intro y
    by_cases hy : y = h
    · subst hy
      exact attachNewControl_limits _ t
    · rw [hother y hy]
  obtain ⟨hbc, hblock, hheap, hnb, hnc, hcontrol⟩ :=
    attachNewControl_columns (h := h) (c := c) (w.container h).control.isNone t
  have hfresh := hx.noneFresh hn
  generalize attachNewControl (w.container h).control.isNone h c t = v
    at hself hother hlimits hbc hblock hheap hnb hnc hcontrol ⊢
  refine ⟨hbc.trans hx.blockControl, ?_, fun b hb => ?_, ?_, fun b hb => ?_, fun a ha => ?_,
    hnb.trans hx.nextBlock, hnc.trans hx.nextControl, fun k => ?_, hself, fun y hy => ?_,
    fun y => ?_⟩
  · change (v.block u.nextBlock).capacity = capacity
    rw [hblock, hx.new]
  · change (v.block b).capacity = (u.block b).capacity
    rw [hblock, hx.old b hb]
  · change v.heap (.block u.nextBlock) = true
    rw [hheap, hx.heapNew]
  · change v.heap (.block b) = u.heap (.block b)
    rw [hheap]
    exact hx.heap _ (fun he => Nat.ne_of_lt hb (Allocation.block.inj he)) (by simp) (by simp)
  · change v.heap a = false
    rw [hheap]
    exact hfresh a (ha.of_le hnb.ge hnc.ge)
  · by_cases hk : k = c
    · subst hk
      rw [modifyControl_self, if_pos rfl, hcontrol, hx.control]
    · rw [modifyControl_other _ hk, if_neg hk, hcontrol, hx.control, Nat.add_zero]
  · change (v.container y).control = (u.container y).control
    rw [hother y hy, hx.container]
  · change (v.container y).limits = (u.container y).limits
    rw [hlimits y, hx.container]

theorem Extended.tick {t : World α} (hx : Extended u t c capacity) : Extended u (tick t) c capacity :=
  ⟨hx.container, hx.control, hx.nextBlock, hx.nextControl, hx.blockControl, hx.new, hx.old,
    hx.heapNew, hx.heap⟩

/-- A block of a legal capacity joins the control of the hive. -/
theorem ControlFor.keepsTight {t : World α} (hf : ControlFor w u h c) (hi : Inv w) (ht : Tight w)
    (hx : Extended u t c capacity) (hpos : 0 < capacity)
    (hin : within (w.container h).limits capacity) :
    KeepsTight w ((attachNewControl (w.container h).control.isNone h c t).modifyControl c fun k =>
      { k with capacity := k.capacity + capacity }) := by
  obtain ⟨htu, hcount, hk, hu, hmine⟩ := hf.counted hi ht
  have hg := hx.grown hf hu htu.noneFresh
  rw [← hu] at hcount hin hmine
  exact ⟨hg.tight htu hk hcount hpos hin hmine, fun y => by rw [hg.limits, hu]⟩

/-- The capacity of a new block is within the limits of the hive. -/
theorem growth_within {limits : Limits} {blockMax maximum : ℕ} (current : ℕ)
    (hle : blockMax ≤ limits.max) (h₀ : limits.min ≠ 0) (h₁ : ¬blockMax < limits.min)
    (h₂ : ¬limits.min > maximum - current) :
    0 < min (min (max limits.min current) blockMax) (maximum - current) ∧
      within limits (min (min (max limits.min current) blockMax) (maximum - current)) := by
  simp only [within, decide_eq_true_eq]
  omega

theorem allocationBlockMax_limits : allocationBlockMax w h ≤ (w.container h).limits.max := by
  unfold allocationBlockMax
  simp only
  omega

theorem emplaceNew_keepsTight (hi : Inv w) (ht : Tight w) :
    Ends (emplaceNew env h value) w (fun _ w' => KeepsTight w w') (fun _ _ => True) := by
  simp only [emplaceNew, ends_bind, ends_get]
  split
  · trivial
  · next hguard =>
    simp only [not_or] at hguard
    obtain ⟨h₀, h₁, -, h₂⟩ := hguard
    obtain ⟨hpos, hin⟩ := growth_within (w.capacity h) allocationBlockMax_limits h₀ h₁ h₂
    simp only [ends_bind, ends_tryCatch, ends_mayThrow, ends_modify, ends_throw, ends_pure]
    refine (controlOrNew_ends ht.noneFresh).mono ?_ fun _ _ _ => trivial
    intro c u hfor
    have hfor : ControlFor w u h c := hfor
    refine (allocateBlock_ends (hfor.noneFresh ht.noneFresh) _).mono ?_ fun _ _ _ => trivial
    rintro b u₁ ⟨rfl, rfl⟩
    split
    · trivial
    · generalize min (min (max (w.container h).limits.min (w.capacity h))
        (allocationBlockMax w h)) (maxSize env w h - w.capacity h) = capacity at hpos hin ⊢
      have hx : Extended u (tick (withBlock env u c capacity)) c capacity := extended_withBlock.tick
      generalize tick (withBlock env u c capacity) = t at hx ⊢
      have hnew : ((attachNewControl (w.container h).control.isNone h c t).block u.nextBlock).capacity
          = (t.block u.nextBlock).capacity := by
        rw [(attachNewControl_columns _ t).2.1]
      rw [hnew, hx.new]
      have hk := hfor.keepsTight hi ht hx hpos hin
      exact hk.trans (same_activate.keeps hk.tight)

/-- `emplace` keeps the account of the blocks, whether it throws or not. -/
theorem emplace_keepsTight (hi : Inv w) (ht : Tight w) :
    Ends (emplace env h value) w (fun _ w' => KeepsTight w w') (fun _ w' => KeepsTight w w') := by
  have hok : Ends (emplace env h value) w (fun _ w' => KeepsTight w w') (fun _ _ => True) := by
    simp only [emplace, ends_bind, ends_get]
    split
    · exact emplaceNew_keepsTight hi ht
    · split
      · simp only [emplaceAvailable, ends_bind, ends_get, ends_tryCatch, ends_mayThrow, ends_modify,
          ends_throw, ends_pure]
        split
        · trivial
        · exact (same_tick.trans same_commitAvailable).keeps ht
      · split
        · simp only [emplaceReserved, ends_bind, ends_tryCatch, ends_mayThrow, ends_modify,
            ends_throw, ends_pure]
          split
          · trivial
          · exact ((same_tick.trans same_takeReserved).trans same_activate).keeps ht
        · exact emplaceNew_keepsTight hi ht
  exact (hok.and (emplace_undone hi ht.noneFresh)).mono (fun _ _ hu => hu.1) fun _ _ hu =>
    hu.2.keeps hi ht

theorem appendInput_keepsTight {values : List α} (hi : Inv w) (ht : Tight w) :
    Ends (appendInput env h values) w (fun _ w' => KeepsTight w w')
      (fun _ w' => KeepsTight w w') := by
  induction values generalizing w with
  | nil =>
    simp only [appendInput, ends_pure]
    exact SameOwners.refl.keeps ht
  | cons v values ih =>
    simp only [appendInput, ends_bind]
    refine ((emplace_spec hi).and (emplace_keepsTight hi ht)).mono ?_ fun _ _ hu => hu.2
    rintro it u ⟨hu, hk⟩
    exact (ih hu.touches.inv hk.tight).mono (fun _ _ hv => hk.trans hv) fun _ _ hv => hk.trans hv

theorem assign_keepsTight {values : List α} (hi : Inv w) (ht : Tight w) :
    Ends (assign env h values) w (fun _ w' => KeepsTight w w') (fun _ w' => KeepsTight w w') := by
  have hc : KeepsTight w (w.clearWithoutEndInvalidation h) :=
    same_clearWithoutEndInvalidation.keeps ht
  have hepoch : ∀ u, KeepsTight (w.clearWithoutEndInvalidation h) u →
      KeepsTight w (u.modifyContainer h
        ({ · with endEpoch := (w.container h).endEpoch })) := fun u hu =>
    (hc.trans hu).trans ((same_modifyContainer rfl rfl).keeps hu.tight)
  simp only [assign, ends_bind, ends_get, ends_modify, ends_tryCatch, ends_throw]
  exact (appendInput_keepsTight (clearWithoutEndInvalidation_spec hi).1.inv hc.tight).mono
    (fun _ u hu => hepoch u hu) fun _ u hu => hepoch u hu

/-! ## Reserving and trimming -/

theorem same_linkReserved : SameOwners (w.modifyControl c fun k =>
    { k with capacity := k.capacity + (w.block b).capacity }) (w.linkReserved c b) := by
  refine .of_container ⟨rfl, fun _ => rfl, rfl, rfl, rfl, fun k => ?_⟩ rfl
  by_cases hk : k = c
  · subst hk
    simp [World.linkReserved, World.reservedPush]
  · simp [World.linkReserved, World.reservedPush, modifyControl, hk]

theorem reserveBlock_keepsTight (hi : Inv w) (ht : Tight w) (hpos : 0 < capacity)
    (hin : within (w.container h).limits capacity) :
    Ends (reserveBlock env h capacity) w (fun _ w' => KeepsTight w w')
      (fun _ w' => KeepsTight w w') := by
  simp only [reserveBlock, ends_bind, ends_get, ends_tryCatch, ends_modify, ends_throw]
  refine ((controlOrNew_spec hi).and (controlOrNew_ends ht.noneFresh)).mono ?_
    fun _ _ hu => hu.2.2.undone.keeps hi ht
  rintro c u ⟨⟨S, hc⟩, hfor⟩
  have hfor : ControlFor w u h c := hfor
  refine (allocateBlock_ends (hfor.noneFresh ht.noneFresh) _).mono ?_ ?_
  · rintro b t ⟨rfl, rfl⟩
    have hx : Extended u (withBlock env u c capacity) c capacity := extended_withBlock
    generalize withBlock env u c capacity = t at hx ⊢
    have hk := hfor.keepsTight hi ht hx hpos hin
    rw [← hx.new, ← (attachNewControl_columns (h := h) (c := c) _ t).2.1] at hk
    exact hk.trans (same_linkReserved.keeps hk.tight)
  · intro e t hu
    exact (hfor.drop ht.noneFresh hc.silent hu).undone.keeps hi ht

theorem reserveBlocks_keepsTight {blockMax : ℕ} {blocks added : ℕ} (hi : Inv w) (ht : Tight w)
    (hpos : 0 < (w.container h).limits.min) (hroom : (w.container h).limits.min ≤ blockMax)
    (hmax : blockMax ≤ (w.container h).limits.max) (hsmall : blockMax ≤ 65535)
    (hle : blocks * (w.container h).limits.min ≤ added) (hge : added ≤ blocks * blockMax) :
    Ends (reserveBlocks env h blockMax blocks added) w (fun _ w' => KeepsTight w w')
      (fun _ w' => KeepsTight w w') := by
  induction blocks generalizing added w with
  | zero =>
    simp only [reserveBlocks, ends_pure]
    exact SameOwners.refl.keeps ht
  | succ blocks ih =>
    obtain ⟨hcap, hrest, hfit⟩ := greedy_bounds hroom hle hge
    have hin : within (w.container h).limits
        (min blockMax (added - blocks * (w.container h).limits.min)) := by
      simp only [within, decide_eq_true_eq]
      exact ⟨hcap, (Nat.min_le_left _ _).trans hmax⟩
    rw [ends_reserveBlocks_succ]
    refine ((reserveBlock_spec hi (hpos.trans_le hcap)
      ((Nat.min_le_left _ _).trans hsmall)).and
        (reserveBlock_keepsTight hi ht (hpos.trans_le hcap) hin)).mono ?_ fun _ _ hu => hu.2
    rintro - u ⟨⟨hsame, -⟩, hk⟩
    have hlim := hk.limits h
    exact (ih hsame.unchanged.touches.inv hk.tight (hlim ▸ hpos) (hlim ▸ hroom) (hlim ▸ hmax)
      (hlim ▸ hrest) hfit).mono (fun _ _ hv => hk.trans hv) fun _ _ hv => hk.trans hv

theorem World.PlanOk.keepsTight {plan : Plan} (hp : PlanOk w h plan) (hi : Inv w) (ht : Tight w)
    (hmax : plan.blockMax ≤ (w.container h).limits.max) :
    Ends (reserveBlocks env h plan.blockMax plan.blocks plan.added) w (fun _ w' => KeepsTight w w')
      (fun _ w' => KeepsTight w w') :=
  reserveBlocks_keepsTight hi ht hp.positive hp.room hmax hp.small hp.lower hp.upper

theorem planCapacity_blockMax {current requested : ℕ} {plan : Plan}
    (hp : planCapacity env w h current requested = some plan) :
    plan.blockMax = allocationBlockMax w h := by
  unfold planCapacity at hp
  simp only at hp
  split at hp
  · exact absurd hp (by simp)
  · generalize (requested - current) / allocationBlockMax w h +
      (if (requested - current) % allocationBlockMax w h ≠ 0 then 1 else 0) = blocks at hp
    split at hp
    · exact absurd hp (by simp)
    · cases hp
      rfl

theorem reserve_keepsTight (hi : Inv w) (ht : Tight w) (n : ℕ) :
    Ends (reserve env h n) w (fun _ w' => KeepsTight w w') (fun _ w' => KeepsTight w w') := by
  simp only [reserve, ends_bind, ends_get]
  split
  · exact SameOwners.refl.keeps ht
  · split
    · exact SameOwners.refl.keeps ht
    · next plan hp =>
      refine (planCapacity_spec hp).1.keepsTight hi ht ?_
      rw [planCapacity_blockMax hp]
      exact allocationBlockMax_limits

/-- A reserved block is dropped. -/
theorem shrunk_dropBlock (link : Option BlockId) (hf : NoneFresh w) :
    Shrunk w (dropBlock w c link b) c b := by
  obtain ⟨hblock, hbc, -, -, -, -, -, hcont, hnb, hnc⟩ :=
    dropBlock_columns (w := w) (c := c) (b := b) link
  have hgone : ∀ a, w.heap a = false → (dropBlock w c link b).heap a = false := by
    intro a ha
    by_cases hb : a ≠ .block b ∧ a ≠ .slots b ∧ a ≠ .skip b
    · rw [dropBlock_heap link hb, ha]
    · simp only [dropBlock, World.deallocateBlock, World.release]
      simp only [not_and_or, not_not] at hb
      obtain rfl | rfl | rfl := hb
      · simp
      · simp
      · simp
  refine ⟨hbc, fun x => by rw [hblock], fun x hx => dropBlock_heap link (by simp [hx]), ?_,
    fun a ha => hgone a (hf a (ha.of_le hnb.ge hnc.ge)), hnb, hnc, ?_, fun k hk => ?_,
    fun y => by rw [hcont], fun y => by rw [hcont]⟩
  · simp [dropBlock, World.deallocateBlock, World.release]
  · rw [dropBlock_control]
  · cases link <;>
      simp [dropBlock, World.deallocateBlock, World.release, setLink, modifyControl, hk]

theorem World.HiveOk.mem_owned (hh : HiveOk w h c S) (hb : b ∈ S.blocks) : b ∈ w.owned c := by
  have hown := hh.represents.lists.owned b hb
  exact Hive.mem_owned.mpr ⟨hown.known, hown.control, hown.heapBlock⟩

theorem World.HiveOk.keepsTight_dropBlock (hh : HiveOk w h c S) (ht : Tight w)
    (hb : b ∈ S.reserved) (link : Option BlockId) : KeepsTight w (dropBlock w c link b) := by
  have hs := shrunk_dropBlock (c := c) (b := b) link ht.noneFresh
  exact ⟨hs.tight ht (hh.mem_owned (Shape.mem_blocks.mpr (.inr (.inl hb)))), hs.limits⟩

theorem trimWhile_keepsTight (mayDrop : ℕ → Bool) {fuel : ℕ} (hh : HiveOk w h c S)
    (ht : Tight w) : KeepsTight w (trimWhile c mayDrop fuel w) := by
  induction fuel generalizing w S with
  | zero => exact SameOwners.refl.keeps ht
  | succ n ih =>
    cases hb : (w.control c).reservedHead with
    | none =>
      rw [trimWhile, hb]
      exact SameOwners.refl.keeps ht
    | some b =>
      rw [trimWhile_succ mayDrop n hb]
      split
      · obtain ⟨rest, hres⟩ := hh.represents.lists.reserved_cons hb
        have hk := hh.keepsTight_dropBlock ht (b := b) (by simp [hres]) none
        obtain ⟨hok, -⟩ := dropBlock_spec hh (show S.reserved = [] ++ b :: rest from hres)
        exact hk.trans (ih hok hk.tight)
      · exact SameOwners.refl.keeps ht

theorem trimCapacity_keepsTight (hi : Inv w) (ht : Tight w) : KeepsTight w (w.trimCapacity h) := by
  unfold World.trimCapacity
  split
  · exact SameOwners.refl.keeps ht
  · next c hc =>
    obtain ⟨S, hS⟩ := hi h c hc
    exact trimWhile_keepsTight _ hS ht

theorem trimCapacityTo_keepsTight (hi : Inv w) (ht : Tight w) (n : ℕ) :
    KeepsTight w (w.trimCapacityTo h n) := by
  unfold World.trimCapacityTo
  split
  · exact SameOwners.refl.keeps ht
  · next c hc =>
    obtain ⟨S, hS⟩ := hi h c hc
    split
    · exact SameOwners.refl.keeps ht
    · exact trimWhile_keepsTight _ hS ht

/-! ## Releasing -/

/-- The blocks of `l` may have been deallocated. -/
structure Freed (w w' : World α) (l : List BlockId) : Prop where
  blockControl : w'.blockControl = w.blockControl
  block : ∀ b, (w'.block b).capacity = (w.block b).capacity
  heap : ∀ a, w'.heap a = true → w.heap a = true
  kept : ∀ b ∉ l, w'.heap (.block b) = w.heap (.block b)
  reservedNext : w'.reservedNext = w.reservedNext
  control : w'.control = w.control
  container : w'.container = w.container
  nextBlock : w'.nextBlock = w.nextBlock
  nextControl : w'.nextControl = w.nextControl

theorem Freed.refl {l : List BlockId} : Freed w w l :=
  ⟨rfl, fun _ => rfl, fun _ ha => ha, fun _ _ => rfl, rfl, rfl, rfl, rfl, rfl⟩

theorem Freed.trans {l l' : List BlockId} (hf : Freed w u l) (hf' : Freed u v l') :
    Freed w v (l ++ l') := by
  refine ⟨hf'.blockControl.trans hf.blockControl, fun b => (hf'.block b).trans (hf.block b),
    fun a ha => hf.heap a (hf'.heap a ha), fun b hb => ?_, hf'.reservedNext.trans hf.reservedNext,
    hf'.control.trans hf.control, hf'.container.trans hf.container,
    hf'.nextBlock.trans hf.nextBlock, hf'.nextControl.trans hf.nextControl⟩
  rw [List.mem_append, not_or] at hb
  rw [hf'.kept b hb.2, hf.kept b hb.1]

theorem release_heap {a a' : Allocation} (ha : (w.release a).heap a' = true) : w.heap a' = true := by
  by_cases he : a' = a
  · subst he
    exact absurd ha (by simp [World.release])
  · exact (Function.update_of_ne he _ _).symm.trans ha

theorem freed_deallocateBlock : Freed w (w.deallocateBlock b) [b] := by
  refine ⟨rfl, fun _ => rfl, fun a ha => release_heap (release_heap (release_heap ha)),
    fun x hx => ?_, rfl, rfl, rfl, rfl, rfl⟩
  exact deallocateBlock_heap (by simpa using hx)

theorem freed_releaseActive {fuel : ℕ} {start : Option BlockId} {l : List BlockId}
    (hl : Chain w.activeLinks.next start l) : Freed w (releaseActive fuel start w) l := by
  induction l generalizing w start fuel with
  | nil =>
    rw [show start = none from hl]
    cases fuel <;> exact .refl
  | cons b l ih =>
    obtain ⟨rfl, hl⟩ := hl
    cases fuel with
    | zero => exact .refl
    | succ n =>
      have hdestroy : Freed w (w.modifyBlock b Block.destroyLiveElements) [] := by
        have hs := same_modifyBlock (w := w) (b := b) (f := Block.destroyLiveElements)
          (Block.destroyFrom_capacity _ _)
        exact ⟨rfl, hs.blocks.block, fun _ ha => ha, fun _ _ => rfl, rfl, rfl, rfl, rfl, rfl⟩
      exact (hdestroy.trans freed_deallocateBlock).trans (ih hl)

theorem freed_releaseReserved {fuel : ℕ} {start : Option BlockId} {l : List BlockId}
    (hl : Chain w.reservedNext start l) : Freed w (releaseReserved fuel start w) l := by
  induction l generalizing w start fuel with
  | nil =>
    rw [show start = none from hl]
    cases fuel <;> exact .refl
  | cons b l ih =>
    obtain ⟨rfl, hl⟩ := hl
    cases fuel with
    | zero => exact .refl
    | succ n => exact freed_deallocateBlock.trans (ih hl)

theorem freed_deallocateControl : Freed w (w.deallocateControl c) [] :=
  ⟨rfl, fun _ => rfl, fun _ ha => release_heap ha, fun _ _ => by
    simp [World.deallocateControl, World.release], rfl, rfl, rfl, rfl, rfl⟩

theorem Freed.owned {l : List BlockId} (hf : Freed w u l) (hl : ∀ b ∈ l, w.blockControl b ≠ d) :
    u.owned d = w.owned d := by
  ext b
  rw [mem_owned, mem_owned, hf.nextBlock, hf.blockControl]
  refine and_congr_right fun _ => and_congr_right fun hb => ?_
  rw [hf.kept b fun hm => hl b hm hb]

/-- The hive `h` has lost its control with all blocks. -/
theorem Freed.keepsTight {l : List BlockId} (hf : Freed w u l) (hi : Inv w) (ht : Tight w)
    (hc : (w.container h).control = some c) (hl : ∀ b ∈ l, w.blockControl b = c) :
    KeepsTight w (u.modifyContainer h ({ · with control := none })) := by
  have hcont : ∀ y ≠ h, (u.modifyContainer h ({ · with control := none })).container y =
      w.container y := by
    intro y hy
    rw [← hf.container]
    exact Function.update_of_ne hy _ _
  refine ⟨⟨fun y k hy => ?_, fun b hb hheap => ?_, fun a ha => ?_⟩, fun y => ?_⟩
  · have hyh : y ≠ h := by
      rintro rfl
      simp [modifyContainer] at hy
    rw [hcont y hyh] at hy ⊢
    have hck : c ≠ k := by
      rintro rfl
      obtain ⟨S, hS⟩ := hi h c hc
      obtain ⟨T, hT⟩ := hi y c hy
      exact hyh (hS.unique hT)
    have howned : u.owned k = w.owned k := hf.owned fun b hb => hl b hb ▸ hck
    exact (ht.counted y k hy).congr howned (fun b _ => hf.block b) (by rw [← hf.control]; rfl)
  · have hb : b < u.nextBlock := hb
    have hheap : u.heap (.block b) = true := hheap
    change u.blockControl b < u.nextControl
    rw [hf.nextBlock] at hb
    rw [hf.blockControl, hf.nextControl]
    exact ht.known b hb (hf.heap _ hheap)
  · have hold : Fresh w a := ha.of_le hf.nextBlock.ge hf.nextControl.ge
    change u.heap a = false
    by_contra hn
    have hheap := hf.heap a (by simpa using hn)
    rw [ht.noneFresh a hold] at hheap
    exact Bool.false_ne_true hheap
  · by_cases hy : y = h
    · subst hy
      simp [modifyContainer, hf.container]
    · rw [hcont y hy]

/-- What the destructor of a hive frees. -/
theorem freed_releaseStorage (hi : Inv w) (hc : (w.container h).control = some c) :
    ∃ u l, w.releaseStorage h = u.modifyContainer h ({ · with control := none }) ∧ Freed w u l ∧
      ∀ b ∈ l, w.blockControl b = c := by
  obtain ⟨S, hS⟩ := hi h c hc
  have hL := hS.represents.lists
  have h₁ : Freed w (releaseActive w.nextBlock (w.control c).activeHead w) S.active :=
    freed_releaseActive hL.active_chain
  have hstorage : w.releaseStorage h = (((releaseReserved
      (releaseActive w.nextBlock (w.control c).activeHead w).nextBlock
      ((releaseActive w.nextBlock (w.control c).activeHead w).control c).reservedHead
      (releaseActive w.nextBlock (w.control c).activeHead w)).deallocateControl c).modifyContainer h
      ({ · with control := none })) := by
    unfold World.releaseStorage
    rw [hc]
  rw [hstorage]
  generalize releaseActive w.nextBlock (w.control c).activeHead w = u₁ at h₁ ⊢
  have hchain : Chain u₁.reservedNext (u₁.control c).reservedHead S.reserved := by
    rw [h₁.reservedNext, h₁.control]
    exact hL.reserved.chain
  have h₂ : Freed u₁ (releaseReserved u₁.nextBlock (u₁.control c).reservedHead u₁) S.reserved :=
    freed_releaseReserved hchain
  refine ⟨_, _, rfl, (h₁.trans h₂).trans freed_deallocateControl, fun b hb => hL.mem_owned ?_⟩
  simp only [List.mem_append, List.not_mem_nil, or_false] at hb
  exact Shape.mem_blocks.mpr (hb.imp_right .inl)

/-- The destructor of a hive keeps the account of all other blocks. -/
theorem releaseStorage_keepsTight (hi : Inv w) (ht : Tight w) :
    KeepsTight w (w.releaseStorage h) := by
  cases hc : (w.container h).control with
  | none =>
    unfold World.releaseStorage
    rw [hc]
    exact SameOwners.refl.keeps ht
  | some c =>
    obtain ⟨u, l, heq, hf, hl⟩ := freed_releaseStorage hi hc
    rw [heq]
    exact hf.keepsTight hi ht hc hl

theorem releaseStorage_control (hi : Inv w) : (w.releaseStorage h).control = w.control := by
  cases hc : (w.container h).control with
  | none =>
    unfold World.releaseStorage
    rw [hc]
  | some c =>
    obtain ⟨u, l, heq, hf, -⟩ := freed_releaseStorage hi hc
    rw [heq]
    exact hf.control

end CCForge.Hive
