import CCForge.Lib.BoundedParts
import CCForge.Hive.Removal

/-!
# Reserved storage

`reserve` adds vacant blocks to the reserved list, `trim_capacity` and `reshape` drop
some of them. None of this touches an element.
-/

namespace CCForge.Hive

open World Effect

variable {α : Type} {env : Env α} {w w' : World α} {h : HiveId} {c : ControlId} {S : Shape}
  {b : BlockId}

/-! ## Adding blocks -/

theorem World.Represents.reservedPush (hr : Represents w c S) (hf : S.floating = [b])
    (hv : (w.block b).Vacant) :
    Represents (w.reservedPush c b) c { S with reserved := b :: S.reserved, floating := [] } := by
  have hperm : S.blocks.Perm
      ({ S with reserved := b :: S.reserved, floating := [] } : Shape).blocks := by
    simp only [Shape.blocks, hf, List.append_nil]
    exact (List.perm_append_singleton b _).trans List.perm_middle.symm
  refine ⟨hr.lists.reservedPush hf, ⟨hr.filled.active, hr.filled.available, fun x hx => ?_,
    fun x hx => hr.filled.capacity x (hperm.mem_iff.mpr hx)⟩, ?_, ?_⟩
  · rcases List.mem_cons.mp hx with rfl | hx
    · exact hv
    · exact hr.filled.reserved x hx
  · simp only [World.reservedPush, modifyControl_self]
    exact hr.size
  · simp only [World.reservedPush, modifyControl_self]
    rw [hr.capacity]
    exact totalCapacity_perm hperm

/-- `link_reserved` puts a new block on the reserved list. -/
theorem linkReserved_spec (hr : Represents w c S) (hf : S.floating = []) (hb : b ∉ S.blocks)
    (ho : Owned w c b) (hc : Clean w b) (hv : (w.block b).Vacant)
    (hcap : 0 < (w.block b).capacity ∧ (w.block b).capacity ≤ 65535) :
    Represents (w.linkReserved c b) c { S with reserved := b :: S.reserved, floating := [] } ∧
      Keeps w (w.linkReserved c b) h c := by
  have heq : w.linkReserved c b = (w.modifyControl c fun k =>
      { k with capacity := k.capacity + (w.block b).capacity }).reservedPush c b := by
    have hactive : Function.update w.active b false = w.active := by
      rw [← hc.active]
      exact Function.update_eq_self b w.active
    simp [World.linkReserved, World.reservedPush, modifyControl, hactive]
  rw [heq]
  refine ⟨(World.Represents.adopt hr hf hb ho hc hcap).reservedPush rfl hv, ?_⟩
  exact Keeps.trans (keeps_modifyControl rfl) (keeps_reservedPush ho.control)

/-- The elements and the limits of `h` are the same. -/
structure SameContents (w w' : World α) (h : HiveId) : Prop where
  unchanged : Unchanged w w' h
  limits : (w'.container h).limits = (w.container h).limits

theorem SameContents.trans {u : World α} (hu : SameContents w w' h) (hu' : SameContents w' u h) :
    SameContents w u h :=
  ⟨⟨hu.unchanged.touches.trans hu'.unchanged.touches,
    hu'.unchanged.elements.trans hu.unchanged.elements⟩, hu'.limits.trans hu.limits⟩

theorem World.Silent.sameContents (hs : Silent w w') (hi : Inv w) : SameContents w w' h :=
  ⟨hs.unchanged hi, by rw [hs.container]⟩

theorem attachNewControl_limits (n : Bool) (u : World α) :
    ((attachNewControl n h c u).container h).limits = (u.container h).limits := by
  unfold attachNewControl
  split
  · simp [modifyContainer]
  · rfl

/-- One round of the loop of `reserve_blocks`. -/
def reserveBlock (env : Env α) (h : HiveId) (blockCapacity : ℕ) : HiveM α Unit := do
  let w ← get
  let newControl := (w.container h).control.isNone
  let c ← controlOrNew env h
  let b ← tryCatch (allocateBlock env c blockCapacity) fun e => do
    modify (dropNewControl newControl c)
    throw e
  modify fun w => (attachNewControl newControl h c w).linkReserved c b

theorem ends_reserveBlocks_succ {blockMax blocks added : ℕ} {Q : Unit → World α → Prop}
    {E : Error → World α → Prop} :
    Ends (reserveBlocks env h blockMax (blocks + 1) added) w Q E ↔
      Ends (reserveBlock env h (min blockMax (added - blocks * (w.container h).limits.min))) w
        (fun _ u => Ends (reserveBlocks env h blockMax blocks
          (added - min blockMax (added - blocks * (w.container h).limits.min))) u Q E) E := by
  simp only [reserveBlocks, reserveBlock, ends_bind, ends_get]

/-- A round adds a vacant block. No element is involved. -/
theorem reserveBlock_spec {capacity : ℕ} (hi : Inv w) (hpos : 0 < capacity)
    (hsmall : capacity ≤ 65535) :
    Ends (reserveBlock env h capacity) w
      (fun _ w' => SameContents w w' h ∧ w'.capacity h = w.capacity h + capacity)
      (fun e w' => SameContents w w' h ∧ e ≠ .element) := by
  simp only [reserveBlock, ends_bind, ends_get, ends_tryCatch, ends_modify, ends_throw]
  refine ((controlOrNew_spec hi).and controlOrNew_error).mono ?_
    (fun _ _ hs => ⟨hs.1.sameContents hi, hs.2⟩)
  rintro c u ⟨⟨S, hc⟩, -⟩
  refine ((allocateBlock_spec _).and (allocateBlock_error _)).mono ?_ ?_
  · rintro b u₁ ⟨hb, -⟩
    have hs₁ : Silent w u₁ := hc.silent.trans hb.silent
    have hok : HiveOk u₁ h c S := hc.ok.of_local hb.silent.loc (Set.notMem_empty c)
    have hnb : b ∉ S.blocks := fun hm =>
      Nat.not_lt.mpr hb.fresh (hc.ok.represents.lists.owned b hm).known
    obtain ⟨f, hf⟩ := attachNewControl_eq (h := h) (c := c) (w.container h).control.isNone u₁
    have hcontrol := attachNewControl_control u₁ hc.container hs₁.container
    have hlimits := attachNewControl_limits (h := h) (c := c) (w.container h).control.isNone u₁
    rw [hf] at hcontrol hlimits ⊢
    have hr₂ : Represents (u₁.modifyContainer h f) c S := hok.represents.modifyContainer f
    have hown : Owned (u₁.modifyContainer h f) c b :=
      ⟨hb.owned.control, hb.owned.known, hb.owned.heapBlock, hb.owned.heapSlots, hb.owned.heapSkip⟩
    have hclean : Clean (u₁.modifyContainer h f) b :=
      ⟨hb.clean.active, hb.clean.inAvailable, hb.clean.activeLinks, hb.clean.availableLinks,
        hb.clean.reservedNext⟩
    obtain ⟨hr₃, hk₃⟩ := linkReserved_spec (h := h) hr₂ hok.settled hnb hown hclean hb.vacant (by
      show 0 < (u₁.block b).capacity ∧ (u₁.block b).capacity ≤ 65535
      rw [hb.capacity]
      exact ⟨hpos, hsmall⟩)
    have hblock : ((u₁.modifyContainer h f).linkReserved c b).block = u₁.block := rfl
    have hok₂ : HiveOk (u₁.modifyContainer h f) h c S :=
      ⟨hr₂, hok.settled, hok.owner, hok.known, hok.heap⟩
    have hk₂ : Local {c} u (u₁.modifyContainer h f) :=
      (hb.silent.loc.mono (Set.empty_subset _)).trans (local_modifyContainer h f)
    have hcont : ∀ x, x ≠ h → (u₁.modifyContainer h f).container x = w.container x := by
      intro x hx
      rw [← hs₁.container]
      exact Function.update_of_ne hx _ _
    obtain ⟨ht, he⟩ := hc.onlyTouches hi (hk₂.trans hk₃.loc)
      (fun x hx => (hk₃.container x hx).trans (hcont x hx)) (hok₂.of_keeps hk₃ hr₃ rfl)
      ((hk₃.control h).trans hcontrol)
    refine ⟨⟨⟨ht, ?_⟩, ?_⟩, ?_⟩
    · rw [he, ← hc.elements]
      refine elementsOf_congr fun x hx => ?_
      have hownx := hc.ok.represents.lists.owned x (Shape.mem_blocks.mpr (.inl hx))
      rw [hblock]
      exact (hb.silent.loc.block x hownx.known (Set.notMem_empty _)).block
    · rw [← hs₁.container]
      exact hlimits
    · have hnew : (((u₁.modifyContainer h f).linkReserved c b).control c).capacity =
          (u₁.control c).capacity + (u₁.block b).capacity := by
        simp [World.linkReserved, World.reservedPush, modifyContainer]
      unfold World.capacity
      rw [(hk₃.control h).trans hcontrol]
      simp only
      rw [hnew, hb.control, hc.capacity, hb.capacity]
      rfl
  · rintro e u₁ ⟨hs₁, he⟩
    exact ⟨Silent.sameContents (hc.dropNewControl (hc.silent.trans hs₁)) hi, he⟩

/-- `reserve_blocks` adds vacant blocks, and those added before a failure stay. -/
theorem reserveBlocks_spec {blockMax : ℕ} (hsmall : blockMax ≤ 65535) :
    ∀ {blocks added : ℕ} {w : World α}, Inv w → 0 < (w.container h).limits.min →
      (w.container h).limits.min ≤ blockMax → blocks * (w.container h).limits.min ≤ added →
      added ≤ blocks * blockMax →
      Ends (reserveBlocks env h blockMax blocks added) w
        (fun _ w' => SameContents w w' h ∧ w'.capacity h = w.capacity h + added)
        (fun e w' => SameContents w w' h ∧ e ≠ .element) := by
  intro blocks
  induction blocks with
  | zero =>
    intro added w hi _ _ _ hge
    simp only [reserveBlocks, ends_pure]
    exact ⟨Silent.sameContents .refl hi, by omega⟩
  | succ blocks ih =>
    intro added w hi hmin hmax hle hge
    obtain ⟨hcap, hrest, hfit⟩ := greedy_bounds hmax hle hge
    rw [ends_reserveBlocks_succ]
    refine (reserveBlock_spec hi (hmin.trans_le hcap) ((Nat.min_le_left _ _).trans hsmall)).mono ?_
      fun _ _ hu => hu
    rintro - u ⟨hsame, hgrow⟩
    refine (ih hsame.unchanged.touches.inv ?_ ?_ ?_ hfit).mono
      (fun _ u' hu => ⟨hsame.trans hu.1, ?_⟩) fun _ _ hu => ⟨hsame.trans hu.1, hu.2⟩
    · rw [hsame.limits]
      exact hmin
    · rw [hsame.limits]
      exact hmax
    · rw [hsame.limits]
      exact hrest
    · rw [hu.2, hgrow]
      omega

/-- What `reserve_blocks` relies on. -/
structure World.PlanOk (w : World α) (h : HiveId) (plan : Plan) : Prop where
  small : plan.blockMax ≤ 65535
  positive : 0 < (w.container h).limits.min
  room : (w.container h).limits.min ≤ plan.blockMax
  lower : plan.blocks * (w.container h).limits.min ≤ plan.added
  upper : plan.added ≤ plan.blocks * plan.blockMax

theorem planCapacity_spec {current requested : ℕ} {plan : Plan}
    (hp : planCapacity env w h current requested = some plan) :
    PlanOk w h plan ∧ requested ≤ current + plan.added := by
  unfold planCapacity at hp
  simp only at hp
  split at hp
  · simp at hp
  · next hguard =>
    simp only [not_or] at hguard
    obtain ⟨-, -, hmin, hmax⟩ := hguard
    have hroom := Nat.le_of_not_lt hmax
    have hpos := Nat.pos_of_ne_zero hmin
    have hblocks := le_partsNeeded_mul (requested - current) (lt_of_lt_of_le hpos hroom)
    unfold partsNeeded at hblocks
    generalize (requested - current) / allocationBlockMax w h +
      (if (requested - current) % allocationBlockMax w h ≠ 0 then 1 else 0) = blocks at hp hblocks
    split at hp
    · simp at hp
    · cases hp
      have hle := Nat.mul_le_mul_left blocks hroom
      refine ⟨⟨allocationBlockMax_le w h, hpos, hroom, Nat.le_max_right _ _, ?_⟩, ?_⟩
      · exact Nat.max_le.mpr ⟨hblocks, hle⟩
      · have hmax' := Nat.le_max_left (requested - current) (blocks * (w.container h).limits.min)
        simp only
        omega

theorem reserve_spec (hi : Inv w) (n : ℕ) :
    Ends (reserve env h n) w (fun _ w' => SameContents w w' h ∧ n ≤ w'.capacity h)
      (fun e w' => SameContents w w' h ∧ e ≠ .element) := by
  simp only [reserve, ends_bind, ends_get]
  split
  · next hle => exact ⟨Silent.sameContents .refl hi, hle⟩
  · split
    · exact ⟨Silent.sameContents .refl hi, by simp⟩
    · next plan hp =>
      obtain ⟨hplan, hn⟩ := planCapacity_spec hp
      refine (reserveBlocks_spec hplan.small hi hplan.positive hplan.room hplan.lower hplan.upper).mono
        (fun _ u hu => ⟨hu.1, ?_⟩) fun _ _ hu => hu
      rw [hu.2]
      exact hn

/-! ## Dropping blocks -/

/-- The store after a block was taken out of the reserved list and deallocated. -/
def dropBlock (w : World α) (c : ControlId) (link : Option BlockId) (b : BlockId) : World α :=
  ((setLink w c link (w.reservedNext b)).modifyControl c fun k =>
    { k with capacity := k.capacity - (w.block b).capacity }).deallocateBlock b

theorem dropBlock_heap (link : Option BlockId) {a : Allocation}
    (ha : a ≠ .block b ∧ a ≠ .slots b ∧ a ≠ .skip b) : (dropBlock w c link b).heap a = w.heap a := by
  have hset : (setLink w c link (w.reservedNext b)).heap = w.heap := by
    cases link <;> rfl
  simp [dropBlock, deallocateBlock, release, modifyControl, ha.1, ha.2.1, ha.2.2, hset]

/-- What `dropBlock` leaves alone in the columns of the blocks. -/
theorem dropBlock_columns (link : Option BlockId) :
    (dropBlock w c link b).block = w.block ∧ (dropBlock w c link b).blockControl = w.blockControl ∧
      (dropBlock w c link b).order = w.order ∧ (dropBlock w c link b).active = w.active ∧
      (dropBlock w c link b).inAvailable = w.inAvailable ∧
      (dropBlock w c link b).activeLinks = w.activeLinks ∧
      (dropBlock w c link b).availableLinks = w.availableLinks ∧
      (dropBlock w c link b).container = w.container ∧
      (dropBlock w c link b).nextBlock = w.nextBlock ∧
      (dropBlock w c link b).nextControl = w.nextControl := by
  cases link <;> simp [dropBlock, deallocateBlock, release, modifyControl, setLink]

theorem dropBlock_control (link : Option BlockId) : (dropBlock w c link b).control c =
    { w.control c with
      reservedHead := if link = none then w.reservedNext b else (w.control c).reservedHead
      capacity := (w.control c).capacity - (w.block b).capacity } := by
  cases link <;>
    simp [dropBlock, deallocateBlock, release, setLink, modifyControl]

theorem dropBlock_reservedNext (link : Option BlockId) : (dropBlock w c link b).reservedNext =
    match link with
    | none => w.reservedNext
    | some a => Function.update w.reservedNext a (w.reservedNext b) := by
  cases link <;> simp [dropBlock, deallocateBlock, release, setLink, modifyControl]

theorem dropBlock_memory {x : BlockId} (link : Option BlockId) (hx : x ≠ b) :
    ∀ a, a = .block x ∨ a = .slots x ∨ a = .skip x → (dropBlock w c link b).heap a = w.heap a := by
  intro a ha
  refine dropBlock_heap _ ?_
  rcases ha with rfl | rfl | rfl <;> simp [hx]

theorem dropBlock_lists {l₁ l₂ : List BlockId} (hh : HiveOk w h c S)
    (hres : S.reserved = l₁ ++ b :: l₂) :
    Lists (dropBlock w c l₁.getLast? b) c { S with reserved := l₁ ++ l₂ } := by
  have hL := hh.represents.lists
  obtain ⟨-, hbc, horder, hactive, hinav, hal, havl, -, hnb, -⟩ :=
    dropBlock_columns (w := w) (c := c) (b := b) l₁.getLast?
  have hcontrol := dropBlock_control (w := w) (c := c) (b := b) l₁.getLast?
  have hlast : l₁.getLast? = none ↔ l₁ = [] := List.getLast?_eq_none_iff
  refine hL.unreserve hres ?_ (dropBlock_reservedNext _) ?_ ⟨hal, horder, hactive, havl, hinav⟩
    fun x hx hxb => ?_
  · rw [hcontrol]
    simp [hlast]
  · rw [hcontrol]
    exact ⟨rfl, rfl, rfl, rfl⟩
  · have hown := hL.owned x hx
    exact hown.of_columns (by rw [hbc, hown.control]) hnb (dropBlock_memory _ hxb)

theorem dropBlock_keeps {l₁ l₂ : List BlockId} (hh : HiveOk w h c S)
    (hres : S.reserved = l₁ ++ b :: l₂) : Keeps w (dropBlock w c l₁.getLast? b) h c := by
  have hL := hh.represents.lists
  have hbS : b ∈ S.blocks := Shape.mem_blocks.mpr (.inr (.inl (by simp [hres])))
  obtain ⟨hblock, hbc, horder, hactive, hinav, hal, havl, hcont, hnb, hnc⟩ :=
    dropBlock_columns (w := w) (c := c) (b := b) l₁.getLast?
  have hcontrol := dropBlock_control (w := w) (c := c) (b := b) l₁.getLast?
  refine ⟨⟨fun x _ hx => ?_, fun k _ hk => ?_, fun k _ _ => dropBlock_heap _ (by simp), hnb.ge,
    hnc.ge⟩, by rw [hcontrol], dropBlock_heap _ (by simp), fun x => by rw [hcont],
    fun x _ => by rw [hcont]⟩
  · have hxS := hL.notMem hx
    have hxb : x ≠ b := fun he => hxS (he ▸ hbS)
    have hheap := dropBlock_memory (w := w) (c := c) l₁.getLast? hxb
    refine ⟨by rw [hblock], by rw [hbc], by rw [horder], by rw [hactive], by rw [hinav],
      by rw [hal]; exact .rfl, by rw [havl]; exact .rfl, ?_, hheap _ (.inl rfl),
      hheap _ (.inr (.inl rfl)), hheap _ (.inr (.inr rfl))⟩
    rw [dropBlock_reservedNext]
    cases hl : l₁.getLast? with
    | none => rfl
    | some a =>
      have hxa : x ≠ a := by
        rintro rfl
        refine hxS (Shape.mem_blocks.mpr (.inr (.inl ?_)))
        rw [hres]
        exact List.mem_append_left _ (List.mem_of_getLast? hl)
      exact Function.update_of_ne hxa _ _
  · cases hl : l₁.getLast? <;>
      simp [dropBlock, deallocateBlock, release, setLink, modifyControl,
        Function.update_of_ne (show k ≠ c from hk)]

theorem dropBlock_spec {l₁ l₂ : List BlockId} (hh : HiveOk w h c S)
    (hres : S.reserved = l₁ ++ b :: l₂) :
    HiveOk (dropBlock w c l₁.getLast? b) h c { S with reserved := l₁ ++ l₂ } ∧
      Keeps w (dropBlock w c l₁.getLast? b) h c := by
  have hr := hh.represents
  obtain ⟨hblock, -⟩ := dropBlock_columns (w := w) (c := c) (b := b) l₁.getLast?
  have hcontrol := dropBlock_control (w := w) (c := c) (b := b) l₁.getLast?
  have hperm : S.blocks.Perm (b :: ({ S with reserved := l₁ ++ l₂ } : Shape).blocks) := by
    simp only [Shape.blocks, hres, hh.settled, List.append_nil]
    rw [← List.append_assoc, ← List.append_assoc]
    exact List.perm_middle
  have htotal : w.totalCapacity S.blocks = (w.block b).capacity +
      w.totalCapacity ({ S with reserved := l₁ ++ l₂ } : Shape).blocks := by
    rw [totalCapacity_perm hperm]
    simp [totalCapacity]
  have hkeeps := dropBlock_keeps hh hres
  refine ⟨hh.of_keeps hkeeps ⟨dropBlock_lists hh hres, ⟨?_, ?_, ?_, ?_⟩, ?_, ?_⟩ hh.settled, hkeeps⟩
  · rw [hblock]
    exact hr.filled.active
  · rw [hblock]
    exact hr.filled.available
  · intro x hx
    rw [hblock]
    refine hr.filled.reserved x ?_
    rw [hres]
    simp only [List.mem_append, List.mem_cons] at hx ⊢
    tauto
  · intro x hx
    rw [hblock]
    exact hr.filled.capacity x (hperm.mem_iff.mpr (List.mem_cons_of_mem b hx))
  · have hsize : (dropBlock w c l₁.getLast? b).totalSize S.active = w.totalSize S.active :=
      totalSize_congr fun x _ => by rw [hblock]
    rw [hcontrol]
    exact hr.size.trans hsize.symm
  · have hcap := hr.capacity
    have hsame : (dropBlock w c l₁.getLast? b).totalCapacity
        ({ S with reserved := l₁ ++ l₂ } : Shape).blocks =
        w.totalCapacity ({ S with reserved := l₁ ++ l₂ } : Shape).blocks :=
      totalCapacity_congr fun x _ => by rw [hblock]
    rw [hcontrol, hsame]
    show (w.control c).capacity - (w.block b).capacity = _
    omega

/-- What dropping reserved blocks does to the hive. -/
structure Dropped (w w' : World α) (h : HiveId) (c : ControlId) (S : Shape) : Prop where
  keeps : Keeps w w' h c
  container : w'.container = w.container
  block : w'.block = w.block
  ok : ∃ S', S'.active = S.active ∧ HiveOk w' h c S'

theorem Dropped.refl (hh : HiveOk w h c S) : Dropped w w h c S := ⟨.refl, rfl, rfl, S, rfl, hh⟩

theorem Dropped.sameContents (hi : Inv w) (hc : (w.container h).control = some c)
    (hh : HiveOk w h c S) (hd : Dropped w w' h c S) : SameContents w w' h := by
  obtain ⟨S', hact, hok⟩ := hd.ok
  obtain ⟨ht, he⟩ := hi.of_keeps hc hd.keeps hok
  refine ⟨⟨ht, ?_⟩, by rw [hd.container]⟩
  rw [he, hh.elements hc, hact]
  exact elementsOf_congr fun x _ => by rw [hd.block]

/-- One round of the loop of `trim_capacity`. -/
theorem trimWhile_succ (mayDrop : ℕ → Bool) (fuel : ℕ) (hb : (w.control c).reservedHead = some b) :
    trimWhile c mayDrop (fuel + 1) w =
      if mayDrop ((w.control c).capacity - (w.block b).capacity) then
        trimWhile c mayDrop fuel (dropBlock w c none b)
      else w := by
  have hdrop : (w.modifyControl c fun k =>
      { k with
        reservedHead := w.reservedNext b
        capacity := k.capacity - (w.block b).capacity }).deallocateBlock b = dropBlock w c none b := by
    simp [dropBlock, setLink, modifyControl]
  rw [trimWhile]
  simp only [hb, hdrop]

theorem trimWhile_spec (mayDrop : ℕ → Bool) {fuel : ℕ} (hh : HiveOk w h c S) :
    Dropped w (trimWhile c mayDrop fuel w) h c S := by
  induction fuel generalizing w S with
  | zero => exact .refl hh
  | succ n ih =>
    cases hb : (w.control c).reservedHead with
    | none =>
      rw [trimWhile, hb]
      exact .refl hh
    | some b =>
      rw [trimWhile_succ mayDrop n hb]
      split
      · obtain ⟨rest, hres⟩ := hh.represents.lists.reserved_cons hb
        obtain ⟨hok, hk⟩ := dropBlock_spec hh (show S.reserved = [] ++ b :: rest from hres)
        obtain ⟨hk', hcont, hblock, S', hact, hok'⟩ := ih hok
        have hcols := dropBlock_columns (w := w) (c := c) (b := b) ([] : List BlockId).getLast?
        exact ⟨hk.trans hk', hcont.trans hcols.2.2.2.2.2.2.2.1, hblock.trans hcols.1, S', hact, hok'⟩
      · exact .refl hh

theorem trimWhile_capacity (mayDrop : ℕ → Bool) (fuel : ℕ) :
    ((trimWhile c mayDrop fuel w).control c).capacity ≤ (w.control c).capacity := by
  induction fuel generalizing w with
  | zero => exact le_refl _
  | succ n ih =>
    cases hb : (w.control c).reservedHead with
    | none =>
      rw [trimWhile, hb]
    | some b =>
      rw [trimWhile_succ mayDrop n hb]
      split
      · refine ih.trans ?_
        rw [dropBlock_control]
        exact Nat.sub_le _ _
      · exact le_refl _

/-- `trim_capacity()` drops all reserved blocks. -/
theorem trimWhile_all {fuel : ℕ} (hh : HiveOk w h c S) (hf : S.reserved.length ≤ fuel) :
    ((trimWhile c (fun _ => true) fuel w).control c).reservedHead = none := by
  induction fuel generalizing w S with
  | zero =>
    have hhead := hh.represents.lists.reserved.chain.head
    rw [List.eq_nil_of_length_eq_zero (Nat.le_zero.mp hf)] at hhead
    exact hhead
  | succ n ih =>
    cases hb : (w.control c).reservedHead with
    | none =>
      rw [trimWhile, hb]
      exact hb
    | some b =>
      rw [trimWhile_succ _ n hb, if_pos rfl]
      obtain ⟨rest, hres⟩ := hh.represents.lists.reserved_cons hb
      obtain ⟨hok, -⟩ := dropBlock_spec hh (show S.reserved = [] ++ b :: rest from hres)
      refine ih hok ?_
      rw [hres] at hf
      simpa using hf

theorem trimCapacity_spec (hi : Inv w) : SameContents w (w.trimCapacity h) h := by
  unfold World.trimCapacity
  split
  · exact Silent.sameContents .refl hi
  · next c hc =>
    obtain ⟨S, hS⟩ := hi h c hc
    exact (trimWhile_spec _ hS).sameContents hi hc hS

theorem trimCapacityTo_spec (hi : Inv w) (n : ℕ) : SameContents w (w.trimCapacityTo h n) h := by
  unfold World.trimCapacityTo
  split
  · exact Silent.sameContents .refl hi
  · next c hc =>
    obtain ⟨S, hS⟩ := hi h c hc
    split
    · exact Silent.sameContents .refl hi
    · exact (trimWhile_spec _ hS).sameContents hi hc hS

/-- The pointer behind the blocks that the loop of `reshape` has kept. -/
theorem getLink_eq {l₁ l₂ : List BlockId} (hh : HiveOk w h c S) (hres : S.reserved = l₁ ++ l₂) :
    getLink w c l₁.getLast? = l₂.head? := by
  have hchain := hh.represents.lists.reserved.chain
  rw [hres] at hchain
  rcases List.eq_nil_or_concat l₁ with rfl | ⟨l, a, rfl⟩
  · exact hchain.head
  · rw [List.concat_eq_append, List.append_assoc] at hchain
    simpa [getLink] using hchain.next_at

theorem dropReserved_spec (limits : Limits) {fuel : ℕ} {l₁ l₂ : List BlockId} (hh : HiveOk w h c S)
    (hres : S.reserved = l₁ ++ l₂) :
    Dropped w (dropReserved c limits fuel l₁.getLast? w) h c S := by
  induction fuel generalizing w S l₁ l₂ with
  | zero => exact .refl hh
  | succ n ih =>
    rw [dropReserved, getLink_eq hh hres]
    cases l₂ with
    | nil => exact .refl hh
    | cons b l₂ =>
      simp only [List.head?_cons]
      split
      · have hres' : S.reserved = (l₁ ++ [b]) ++ l₂ := by rw [hres]; simp
        have hd := ih hh hres'
        simpa using hd
      · obtain ⟨hok, hk⟩ := dropBlock_spec hh hres
        have hcols := dropBlock_columns (w := w) (c := c) (b := b) l₁.getLast?
        have hblock : ((setLink w c l₁.getLast? (w.reservedNext b)).block b) = w.block b := by
          cases l₁.getLast? <;> rfl
        have heq : ((setLink w c l₁.getLast? (w.reservedNext b)).modifyControl c fun k =>
            { k with capacity := k.capacity -
              ((setLink w c l₁.getLast? (w.reservedNext b)).block b).capacity }).deallocateBlock b =
            dropBlock w c l₁.getLast? b := by
          rw [hblock]
          rfl
        show Dropped w (dropReserved c limits n l₁.getLast? (_ : World α)) h c S
        rw [heq]
        obtain ⟨hk', hcont, hb', S', hact, hok'⟩ := ih hok rfl
        exact ⟨hk.trans hk', hcont.trans hcols.2.2.2.2.2.2.2.1, hb'.trans hcols.1, S', hact, hok'⟩

end CCForge.Hive
