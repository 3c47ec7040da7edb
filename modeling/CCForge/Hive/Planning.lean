import CCForge.Hive.Capacities
import CCForge.Hive.Splicing

/-!
# The planning of new blocks

`plan_capacity` finds the least number of new blocks in constant time, and `reserve_blocks` makes
them. The plan is exact in the arithmetic of `size_t`.
-/

namespace CCForge.Hive

open World Effect

variable {α : Type} {env : Env α} {w w' u v : World α} {h : HiveId} {c : ControlId}
  {current requested : ℕ} {plan : Plan}

/-! ## The plan -/

theorem planCapacity_eq (hmin : 0 < (w.container h).limits.min) :
    planCapacity env w h current requested =
      if requested ≤ maxSize env w h ∧ current ≤ maxSize env w h ∧
          (w.container h).limits.min ≤ allocationBlockMax w h ∧
          partsNeeded (allocationBlockMax w h) (requested - current) * (w.container h).limits.min ≤
            maxSize env w h - current then
        some ⟨partsNeeded (allocationBlockMax w h) (requested - current),
          max (requested - current)
            (partsNeeded (allocationBlockMax w h) (requested - current) * (w.container h).limits.min),
          allocationBlockMax w h⟩
      else none := by
  unfold planCapacity partsNeeded
  simp only
  generalize (requested - current) / allocationBlockMax w h +
    (if (requested - current) % allocationBlockMax w h ≠ 0 then 1 else 0) = blocks
  by_cases hguard : requested > maxSize env w h ∨ current > maxSize env w h ∨
      (w.container h).limits.min = 0 ∨ allocationBlockMax w h < (w.container h).limits.min
  · rw [if_pos hguard, if_neg]
    omega
  · rw [if_neg hguard]
    simp only [not_or] at hguard
    obtain ⟨h₁, h₂, -, h₃⟩ := hguard
    by_cases hroom : blocks > (maxSize env w h - current) / (w.container h).limits.min
    · rw [if_pos hroom, if_neg]
      rintro ⟨-, -, -, hle⟩
      exact absurd ((Nat.le_div_iff_mul_le hmin).mpr hle) (Nat.not_le_of_gt hroom)
    · rw [if_neg hroom, if_pos]
      exact ⟨Nat.le_of_not_lt h₁, Nat.le_of_not_lt h₂, Nat.le_of_not_lt h₃,
        (Nat.le_div_iff_mul_le hmin).mp (Nat.le_of_not_lt hroom)⟩

/-- New blocks that bring the capacity from `current` to `requested` or more. -/
structure Suffices (env : Env α) (w : World α) (h : HiveId) (current requested : ℕ)
    (capacities : List ℕ) : Prop where
  parts : Parts (w.container h).limits.min (allocationBlockMax w h) capacities
  enough : requested - current ≤ capacities.sum
  fits : current + capacities.sum ≤ maxSize env w h

/-- The capacities of the blocks that `reserve_blocks` makes, in this order. -/
def blockCapacities (w : World α) (h : HiveId) (plan : Plan) : List ℕ :=
  greedyParts (w.container h).limits.min plan.blockMax plan.blocks plan.added

/-- The plan succeeds if and only if some blocks would do. -/
theorem planCapacity_isSome (hmin : 0 < (w.container h).limits.min) :
    (planCapacity env w h current requested).isSome ↔
      requested ≤ maxSize env w h ∧ current ≤ maxSize env w h ∧
        (w.container h).limits.min ≤ allocationBlockMax w h ∧
        ∃ capacities, Suffices env w h current requested capacities := by
  have hcond : (planCapacity env w h current requested).isSome ↔
      requested ≤ maxSize env w h ∧ current ≤ maxSize env w h ∧
        (w.container h).limits.min ≤ allocationBlockMax w h ∧
        partsNeeded (allocationBlockMax w h) (requested - current) * (w.container h).limits.min ≤
          maxSize env w h - current := by
    rw [planCapacity_eq hmin]
    split
    · next hc => exact iff_of_true rfl hc
    · next hc => exact iff_of_false Bool.false_ne_true hc
  rw [hcond]
  refine and_congr_right fun hreq => and_congr_right fun hcur => and_congr_right fun hmax => ?_
  rw [← exists_parts_iff (hmin.trans_le hmax) hmax (Nat.sub_le_sub_right hreq current)]
  constructor
  · rintro ⟨l, hl, hs, hr⟩
    exact ⟨l, hl, hs, by omega⟩
  · rintro ⟨l, hl, hs, hr⟩
    exact ⟨l, hl, hs, by omega⟩

/-- The blocks of a plan suffice, and no other blocks do with fewer of them, or with as many and a
smaller sum. -/
structure Plan.Least (env : Env α) (w : World α) (h : HiveId) (current requested : ℕ) (plan : Plan) :
    Prop where
  count : (blockCapacities w h plan).length = plan.blocks
  sum : (blockCapacities w h plan).sum = plan.added
  works : Suffices env w h current requested (blockCapacities w h plan)
  fewest : ∀ l, Suffices env w h current requested l → plan.blocks ≤ l.length
  least : ∀ l, Suffices env w h current requested l → l.length = plan.blocks → plan.added ≤ l.sum

theorem planCapacity_least (hmin : 0 < (w.container h).limits.min)
    (hp : planCapacity env w h current requested = some plan) :
    plan.Least env w h current requested := by
  obtain ⟨hplan, -⟩ := planCapacity_spec hp
  rw [planCapacity_eq hmin] at hp
  split at hp
  · next hc =>
    obtain ⟨hreq, hcur, hmax, hroom⟩ := hc
    have hsum := greedyParts_sum hplan.room hplan.lower hplan.upper
    have hparts := greedyParts_parts hplan.room hplan.lower hplan.upper
    cases hp
    have hadded : max (requested - current) (partsNeeded (allocationBlockMax w h)
        (requested - current) * (w.container h).limits.min) ≤ maxSize env w h - current :=
      Nat.max_le.mpr ⟨Nat.sub_le_sub_right hreq current, hroom⟩
    refine ⟨greedyParts_length _ _ _ _, hsum, ⟨hparts, ?_, ?_⟩, fun l hl => ?_, fun l hl hlen => ?_⟩
    · exact (Nat.le_max_left _ _).trans hsum.ge
    · unfold blockCapacities
      rw [hsum]
      simp only
      omega
    · exact hl.parts.partsNeeded_le hl.enough
    · refine Nat.max_le.mpr ⟨hl.enough, ?_⟩
      have hge := hl.parts.sum_ge
      rw [hlen] at hge
      exact hge
  · exact absurd hp (by simp)

/-! ## The arithmetic of `size_t` -/

def checkedSub (a b : ℕ) : Option ℕ := if b ≤ a then some (a - b) else none

def checkedAdd (a b : ℕ) : Option ℕ := if a + b < 2 ^ 64 then some (a + b) else none

def checkedMul (a b : ℕ) : Option ℕ := if a * b < 2 ^ 64 then some (a * b) else none

theorem checkedSub_eq {a b : ℕ} (hle : b ≤ a) : checkedSub a b = some (a - b) := if_pos hle

theorem checkedAdd_eq {a b : ℕ} (hlt : a + b < 2 ^ 64) : checkedAdd a b = some (a + b) := if_pos hlt

theorem checkedMul_eq {a b : ℕ} (hlt : a * b < 2 ^ 64) : checkedMul a b = some (a * b) := if_pos hlt

/-- `plan_capacity`; `none` if one of its operations wraps. -/
def planCapacityChecked (env : Env α) (w : World α) (h : HiveId) (current requested : ℕ) :
    Option (Option Plan) :=
  let limits := (w.container h).limits
  let maximum := maxSize env w h
  let blockMax := allocationBlockMax w h
  if requested > maximum ∨ current > maximum ∨ limits.min = 0 ∨ blockMax < limits.min then some none
  else do
    let missing ← checkedSub requested current
    let blocks ← checkedAdd (missing / blockMax) (if missing % blockMax ≠ 0 then 1 else 0)
    let headroom ← checkedSub maximum current
    if blocks > headroom / limits.min then return none
    else
      let least ← checkedMul blocks limits.min
      return some ⟨blocks, max missing least, blockMax⟩

/-- The capacities in the loop of `reserve_blocks`; `none` if one of its operations wraps. -/
def blockCapacitiesChecked (minimum blockMax : ℕ) : ℕ → ℕ → Option (List ℕ)
  | 0, _ => some []
  | blocks + 1, added => do
    let others ← checkedMul blocks minimum
    let rest ← checkedSub added others
    let blockCapacity := min blockMax rest
    let added' ← checkedSub added blockCapacity
    let capacities ← blockCapacitiesChecked minimum blockMax blocks added'
    return blockCapacity :: capacities

/-- The sum in `link_reserved`, for one block after the other. -/
def capacityChecked : ℕ → List ℕ → Option ℕ
  | capacity, [] => some capacity
  | capacity, x :: xs => (checkedAdd capacity x).bind fun sum => capacityChecked sum xs

theorem planCapacityChecked_eq (hsize : maxSize env w h < 2 ^ 64) (hle : current ≤ requested) :
    planCapacityChecked env w h current requested =
      some (planCapacity env w h current requested) := by
  unfold planCapacityChecked planCapacity
  simp only
  split
  · rfl
  · next hguard =>
    simp only [not_or] at hguard
    obtain ⟨hreq, hcur, hmin, hmax⟩ := hguard
    have hpos : 0 < (w.container h).limits.min := Nat.pos_of_ne_zero hmin
    -- a block holds one element or more, so the quotient is no more than what is missing
    have hquot : partsNeeded (allocationBlockMax w h) (requested - current) ≤ requested - current := by
      refine partsNeeded_le (Nat.le_mul_of_pos_right _ ?_)
      exact hpos.trans_le (Nat.le_of_not_lt hmax)
    unfold partsNeeded at hquot
    simp only [Option.bind_eq_bind]
    rw [checkedSub_eq hle, Option.bind_some, checkedAdd_eq (by omega), Option.bind_some,
      checkedSub_eq (Nat.le_of_not_lt hcur), Option.bind_some]
    generalize (requested - current) / allocationBlockMax w h +
      (if (requested - current) % allocationBlockMax w h ≠ 0 then 1 else 0) = blocks
    split
    · rfl
    · next hroom =>
      have hmul := (Nat.le_div_iff_mul_le hpos).mp (Nat.le_of_not_lt hroom)
      rw [checkedMul_eq (by omega)]
      rfl

theorem blockCapacitiesChecked_eq {minimum blockMax blocks added : ℕ} (hmax : minimum ≤ blockMax)
    (hle : blocks * minimum ≤ added) (hge : added ≤ blocks * blockMax) (hsize : added < 2 ^ 64) :
    blockCapacitiesChecked minimum blockMax blocks added =
      some (greedyParts minimum blockMax blocks added) := by
  induction blocks generalizing added with
  | zero => rfl
  | succ blocks ih =>
    obtain ⟨-, hrest, hfit⟩ := greedy_bounds hmax hle hge
    have hothers : blocks * minimum ≤ added := (Nat.mul_le_mul_right _ (Nat.le_succ _)).trans hle
    have hfirst : min blockMax (added - blocks * minimum) ≤ added :=
      (Nat.min_le_right _ _).trans (Nat.sub_le _ _)
    rw [blockCapacitiesChecked]
    simp only [Option.bind_eq_bind]
    rw [checkedMul_eq (hothers.trans_lt hsize), Option.bind_some, checkedSub_eq hothers,
      Option.bind_some, checkedSub_eq hfirst, Option.bind_some,
      ih hrest hfit ((Nat.sub_le _ _).trans_lt hsize)]
    rfl

theorem capacityChecked_eq {capacity : ℕ} {l : List ℕ} (hlt : capacity + l.sum < 2 ^ 64) :
    capacityChecked capacity l = some (capacity + l.sum) := by
  induction l generalizing capacity with
  | nil => rfl
  | cons x xs ih =>
    rw [List.sum_cons, ← Nat.add_assoc] at hlt ⊢
    rw [capacityChecked, checkedAdd_eq ((Nat.le_add_right _ _).trans_lt hlt), Option.bind_some, ih hlt]

/-! ## The reserved blocks -/

/-- The hive has got reserved blocks of these capacities, one after the other; all else is as it
was. -/
structure Grew (w w' : World α) (h : HiveId) (capacities : List ℕ) : Prop where
  same : SameContents w w' h
  tight : Tight w'
  reserved : ∃ new, w'.reservedBlocks h = new ++ w.reservedBlocks h ∧
    (new.map fun b => (w'.block b).capacity) = capacities.reverse ∧ ∀ b ∈ new, b < w'.nextBlock
  old : ∀ b < w.nextBlock, w'.block b = w.block b
  others : ∀ y ≠ h, ∀ k, (w.container y).control = some k → w'.control k = w.control k
  nextBlock : w.nextBlock ≤ w'.nextBlock
  capacity : w'.capacity h = w.capacity h + capacities.sum

/-- Something was not allocated, since some call threw. -/
def AllocationFailed (env : Env α) (e : Error) : Prop :=
  (e = .badAlloc ∨ e = .construct) ∧ ∃ k, env.throws k = true

theorem Grew.refl (hi : Inv w) (ht : Tight w) : Grew w w h [] :=
  ⟨Silent.sameContents .refl hi, ht, ⟨[], rfl, rfl, fun _ hb => absurd hb List.not_mem_nil⟩,
    fun _ _ => rfl, fun _ _ _ _ => rfl, le_refl _, rfl⟩

theorem Grew.trans {l₁ l₂ : List ℕ} (hg : Grew w u h l₁) (hg' : Grew u v h l₂) :
    Grew w v h (l₁ ++ l₂) := by
  obtain ⟨n₁, hr₁, hc₁, hb₁⟩ := hg.reserved
  obtain ⟨n₂, hr₂, hc₂, hb₂⟩ := hg'.reserved
  refine ⟨hg.same.trans hg'.same, hg'.tight, ⟨n₂ ++ n₁, ?_, ?_, fun b hb => ?_⟩, fun b hb => ?_,
    fun y hy k hk => ?_, hg.nextBlock.trans hg'.nextBlock, ?_⟩
  · rw [hr₂, hr₁, List.append_assoc]
  · have hkept : (n₁.map fun b => (v.block b).capacity) = n₁.map fun b => (u.block b).capacity :=
      List.map_congr_left fun b hb => by rw [hg'.old b (hb₁ b hb)]
    rw [List.map_append, hkept, hc₁, hc₂, List.reverse_append]
  · obtain hb | hb := List.mem_append.mp hb
    · exact hb₂ b hb
    · exact (hb₁ b hb).trans_le hg'.nextBlock
  · rw [hg'.old b (hb.trans_le hg.nextBlock), hg.old b hb]
  · rw [hg'.others y hy k (by rw [hg.same.unchanged.touches.container y hy]; exact hk),
      hg.others y hy k hk]
  · rw [hg'.capacity, hg.capacity, List.sum_append, Nat.add_assoc]

theorem Silent.reservedBlocks (hs : Silent w u) (hi : Inv w) (h : HiveId) :
    u.reservedBlocks h = w.reservedBlocks h := by
  cases hc : (w.container h).control with
  | none =>
    unfold World.reservedBlocks
    rw [hs.container, hc]
  | some c =>
    obtain ⟨S, hS⟩ := hi h c hc
    have hS' : HiveOk u h c S := hS.of_local hs.loc fun he => he
    rw [hS.reservedBlocks hc, hS'.reservedBlocks (by rw [hs.container]; exact hc)]

/-- A failed allocation leaves nothing behind. -/
theorem Unaltered.grew (hu : Unaltered w u) (hi : Inv w) (ht : Tight w) : Grew w u h [] := by
  have hs := hu.silent
  refine ⟨hs.sameContents hi, hu.undone.tight hi ht, ⟨[], ?_, rfl, ?_⟩, fun b hb => ?_,
    fun y _ k hk => ?_, hs.loc.nextBlock, ?_⟩
  · exact Silent.reservedBlocks hs hi h
  · exact fun _ hb => absurd hb List.not_mem_nil
  · exact (hs.loc.block b hb fun he => he).block
  · obtain ⟨S, hS⟩ := hi y k hk
    exact hs.loc.control k hS.known fun he => he
  · rw [List.sum_nil, Nat.add_zero]
    unfold World.capacity
    rw [hs.container]
    cases hc : (w.container h).control with
    | none => rfl
    | some c =>
      obtain ⟨S, hS⟩ := hi h c hc
      simp only
      rw [hs.loc.control c hS.known fun he => he]

theorem controlOrNew_failed :
    Ends (controlOrNew env h) w (fun _ _ => True) (fun e _ => AllocationFailed env e) := by
  simp only [controlOrNew, ends_bind, ends_get]
  split
  · trivial
  · simp only [allocateControl, ends_bind, ends_get, ends_allocate, ends_tryCatch, ends_mayThrow,
      ends_modify, ends_throw, ends_pure]
    split_ifs with h₁ h₂
    · exact ⟨.inl rfl, _, h₁⟩
    · exact ⟨.inr rfl, _, h₂⟩

theorem allocateBlock_failed (capacity : ℕ) :
    Ends (allocateBlock env c capacity) w (fun _ _ => True) (fun e _ => AllocationFailed env e) := by
  simp only [allocateBlock, ends_bind, ends_get, ends_allocate, ends_tryCatch, ends_mayThrow,
    ends_modify, ends_throw, ends_pure]
  split_ifs with h₁ h₂ h₃ h₄
  · exact ⟨.inl rfl, _, h₁⟩
  · exact ⟨.inl rfl, _, h₂⟩
  · exact ⟨.inl rfl, _, h₃⟩
  · exact ⟨.inr rfl, _, h₄⟩

/-- The reserved list with a new block at its head. -/
theorem ControlFor.reservedBlocks (hf : ControlFor w u h c) (hi : Inv w) {t : World α}
    (hcontainer : t.container = u.container) (hcontrol : t.control = u.control)
    (hnext : t.reservedNext = Function.update u.reservedNext u.nextBlock none)
    (hblock : t.nextBlock = u.nextBlock + 1) :
    ((attachNewControl (w.container h).control.isNone h c t).linkReserved c
      u.nextBlock).reservedBlocks h = u.nextBlock :: w.reservedBlocks h := by
  obtain ⟨-, -, hu, -⟩ := hf.reserved
  have hself := attachNewControl_control t (fun k hk => hf.known hk) (hcontainer.trans hu)
  obtain ⟨-, -, -, hb, -, hk⟩ :=
    attachNewControl_columns (h := h) (c := c) (w.container h).control.isNone t
  obtain ⟨-, hn⟩ := attachNewControl_others (h := h) (c := c) (w.container h).control.isNone t
  generalize attachNewControl (w.container h).control.isNone h c t = v at hself hb hk hn ⊢
  have hhead : ((v.linkReserved c u.nextBlock).control c).reservedHead = some u.nextBlock := by
    simp [World.linkReserved, World.reservedPush]
  have hwalk : (v.linkReserved c u.nextBlock).reservedBlocks h =
      walk (v.linkReserved c u.nextBlock).reservedNext v.nextBlock (some u.nextBlock) := by
    unfold World.reservedBlocks
    rw [show ((v.linkReserved c u.nextBlock).container h).control = some c from hself]
    simp only [hhead]
    rfl
  have hlinks : (v.linkReserved c u.nextBlock).reservedNext =
      Function.update u.reservedNext u.nextBlock (u.control c).reservedHead := by
    simp only [World.linkReserved, World.reservedPush, modifyControl, hn, hk, hnext, hcontrol,
      Function.update_idem]
  rw [hwalk, hlinks, hb, hblock, walk, Function.update_self]
  congr 1
  -- the control is that of the hive, or a new one with no reserved block
  obtain ⟨hc, rfl⟩ | ⟨hc, rfl, rfl⟩ := hf
  · obtain ⟨S, hS⟩ := hi h c hc
    have hL := hS.represents.lists
    rw [hS.reservedBlocks hc]
    refine walk_eq (hL.reserved.chain.congr fun b hb => ?_) hL.reserved_length_le
    have hown := hL.owned b (Shape.mem_blocks.mpr (.inr (.inl hb)))
    exact Function.update_of_ne (Nat.ne_of_lt hown.known) _ _
  · have hnew : NewControl w (withControl w h) h := newControl_withControl
    rw [hnew.control, Function.update_self]
    unfold World.reservedBlocks
    rw [hc]
    cases (withControl w h).nextBlock <;> rfl

/-- One round of the loop of `reserve_blocks`. -/
theorem reserveBlock_grew {capacity : ℕ} (hi : Inv w) (ht : Tight w) (hpos : 0 < capacity)
    (hin : within (w.container h).limits capacity) (hsmall : capacity ≤ 65535) :
    Ends (reserveBlock env h capacity) w (fun _ w' => Grew w w' h [capacity])
      (fun e w' => Grew w w' h [] ∧ AllocationFailed env e) := by
  have hlists : Ends (reserveBlock env h capacity) w
      (fun _ w' => (∃ b, w'.reservedBlocks h = b :: w.reservedBlocks h ∧
          (w'.block b).capacity = capacity ∧ b < w'.nextBlock) ∧
        (∀ b < w.nextBlock, w'.block b = w.block b) ∧ w.nextBlock ≤ w'.nextBlock ∧
        ∀ y ≠ h, ∀ k, (w.container y).control = some k → w'.control k = w.control k)
      (fun e w' => Grew w w' h [] ∧ AllocationFailed env e) := by
    simp only [reserveBlock, ends_bind, ends_get, ends_tryCatch, ends_modify, ends_throw]
    refine (((controlOrNew_spec hi).and (controlOrNew_ends ht.noneFresh)).and
      controlOrNew_failed).mono ?_ fun _ _ hu => ⟨Unaltered.grew hu.1.2.2 hi ht, hu.2⟩
    -- the control comes before the block: what the hive has got so far is dropped if the block fails
    rintro c u ⟨⟨⟨S, hc⟩, hfor⟩, -⟩
    have hfor : ControlFor w u h c := hfor
    refine ((allocateBlock_ends (hfor.noneFresh ht.noneFresh) _).and (allocateBlock_failed _)).mono
      ?_ ?_
    · rintro b t ⟨⟨rfl, rfl⟩, -⟩
      have hx : Extended u (withBlock env u c capacity) c capacity := extended_withBlock
      have hnext : (withBlock env u c capacity).reservedNext =
          Function.update u.reservedNext u.nextBlock none := by
        simp only [withBlock, tick, setHeap]
      generalize withBlock env u c capacity = t at hx hnext ⊢
      have hreserved := hfor.reservedBlocks hi hx.container hx.control hnext hx.nextBlock
      obtain ⟨-, hnb, -, -⟩ := hfor.reserved
      obtain ⟨-, hblock, -, hn, -, hcontrol⟩ :=
        attachNewControl_columns (h := h) (c := c) (w.container h).control.isNone t
      generalize attachNewControl (w.container h).control.isNone h c t = v
        at hreserved hblock hn hcontrol ⊢
      refine ⟨⟨u.nextBlock, hreserved, ?_, ?_⟩, fun b hb => ?_, ?_, fun y hy k hk => ?_⟩
      · change (v.block u.nextBlock).capacity = capacity
        rw [hblock, hx.new]
      · change u.nextBlock < v.nextBlock
        rw [hn, hx.nextBlock]
        exact Nat.lt_succ_self _
      · change v.block b = w.block b
        rw [hblock, hx.old b (hnb ▸ hb)]
        exact (hc.silent.loc.block b hb fun he => he).block
      · change w.nextBlock ≤ v.nextBlock
        rw [hn, hx.nextBlock, hnb]
        exact Nat.le_succ _
      · obtain ⟨T, hT⟩ := hi y k hk
        -- no other hive has this control
        have hkc : k ≠ c := by
          rintro rfl
          exact hy (hc.ok.unique (hT.of_local hc.silent.loc fun he => he))
        rw [show ((v.linkReserved c u.nextBlock).control k) = v.control k by
          simp [World.linkReserved, World.reservedPush, modifyControl, hkc], hcontrol, hx.control]
        exact hc.silent.loc.control k hT.known fun he => he
    · rintro e t ⟨hu, he⟩
      exact ⟨Unaltered.grew (hfor.drop ht.noneFresh hc.silent hu) hi ht, he⟩
  refine ((hlists.and (reserveBlock_spec hi hpos hsmall)).and
    (reserveBlock_keepsTight hi ht hpos hin)).mono ?_ fun _ _ hu => hu.1.1
  rintro - u ⟨⟨⟨⟨b, hb, hcap, hlt⟩, hold, hle, hothers⟩, hsame, hsum⟩, hk⟩
  refine ⟨hsame, hk.tight, ⟨[b], hb, ?_, ?_⟩, hold, hothers, hle, hsum⟩
  · rw [List.map_singleton, hcap]
    rfl
  · intro x hx
    rw [List.mem_singleton.mp hx]
    exact hlt

/-- `reserve_blocks` makes the blocks one after the other. If it fails, the ones made so far stay. -/
theorem reserveBlocks_grew {blockMax blocks added : ℕ} (hi : Inv w) (ht : Tight w)
    (hpos : 0 < (w.container h).limits.min) (hroom : (w.container h).limits.min ≤ blockMax)
    (hmax : blockMax ≤ (w.container h).limits.max) (hsmall : blockMax ≤ 65535)
    (hle : blocks * (w.container h).limits.min ≤ added) (hge : added ≤ blocks * blockMax) :
    Ends (reserveBlocks env h blockMax blocks added) w
      (fun _ w' => Grew w w' h (greedyParts (w.container h).limits.min blockMax blocks added))
      (fun e w' => (∃ k < blocks, Grew w w' h
          ((greedyParts (w.container h).limits.min blockMax blocks added).take k)) ∧
        AllocationFailed env e) := by
  induction blocks generalizing added w with
  | zero => exact .refl hi ht
  | succ blocks ih =>
    obtain ⟨hcap, hrest, hfit⟩ := greedy_bounds hroom hle hge
    have hin : within (w.container h).limits
        (min blockMax (added - blocks * (w.container h).limits.min)) := by
      simp only [within, decide_eq_true_eq]
      exact ⟨hcap, (Nat.min_le_left _ _).trans hmax⟩
    rw [ends_reserveBlocks_succ]
    refine (reserveBlock_grew hi ht (hpos.trans_le hcap) hin
      ((Nat.min_le_left _ _).trans hsmall)).mono ?_
        fun _ _ hu => ⟨⟨0, Nat.succ_pos blocks, hu.1⟩, hu.2⟩
    rintro - u hu
    have hlim := hu.same.limits
    -- the rounds that follow find the same limits
    have hnext := ih hu.same.unchanged.touches.inv hu.tight (hlim ▸ hpos) (hlim ▸ hroom)
      (hlim ▸ hmax) (hlim ▸ hrest) hfit
    rw [hlim] at hnext
    refine hnext.mono (fun _ _ hv => hu.trans hv) ?_
    rintro e v ⟨⟨k, hk, hv⟩, he⟩
    exact ⟨⟨k + 1, Nat.succ_lt_succ hk, hu.trans hv⟩, he⟩

end CCForge.Hive
